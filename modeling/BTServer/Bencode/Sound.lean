import BTServer.Bencode.Element

set_option autoImplicit false

namespace BTServer.Bencode

open CString Outcome

/-- The four parsers on whatever is left of the buffer, with the fuel that lets them end. -/
structure Sound (env : Env) (fuel : Nat) : Prop where
  list : ∀ st p t ret, env.At p t →
    (bListParse env fuel st p ret).Sat (listPost env fuel st p t ret)
  listLoop : ∀ st p t ret, env.At p t →
    (bListLoop env fuel st p ret).Sat (listLoopPost env fuel st p t ret)
  dict : ∀ st p t ret, env.At p t →
    (bDictParse env fuel st p ret).Sat (dictPost env fuel st p t ret)
  dictLoop : ∀ st p t ret, env.At p t →
    (bDictLoop env fuel st p ret).Sat (dictLoopPost env fuel st p t ret)

theorem noEnd_of_headD {t : Bytes} (other : t.headD 0 ≠ 101) : NoEnd t := by
  intro head
  exact other (by simp [head])

theorem noEnd_append {w rest : Bytes} (some : w ≠ []) (start : NoEnd (w ++ rest)) : NoEnd w := by
  cases w with
  | nil => exact absurd rfl some
  | cons c w => simpa [NoEnd] using start

theorem bListParse_step (env : Env) (fuel : Nat) (sound : Sound env fuel) (st : St) (p : Nat)
    (t : Bytes) (ret : BList) (here : env.At p t) :
    (bListParse env (fuel + 1) st p ret).Sat (listPost env (fuel + 1) st p t ret) := by
  simp only [bListParse, here.load]
  split
  next tag => exact ⟨by simp, fun _ rest same => absurd (by rw [same]; rfl) tag⟩
  next tag =>
    obtain ⟨rest, rfl⟩ := headD_cons (not_not.mp tag) (by decide)
    refine (sound.listLoop st (p + 1) rest ret here.next).mono ?_ ?_ id ?_
    · rintro result st' ⟨parsed, refused⟩
      refine ⟨fun q next => ?_, fun none after same => ?_⟩
      · obtain ⟨w, after, vs, rfl, rfl, reads, contents⟩ := parsed q next
        exact ⟨w, after, vs, rfl, by omega, reads, contents⟩
      · cases same
        exact refused none
    · exact fun overrun => ⟨rest, rfl, overrun⟩
    · rintro (failing | short)
      · exact .inl failing
      · refine .inr ?_
        simp only [List.length_cons]
        omega

theorem bDictParse_step (env : Env) (fuel : Nat) (sound : Sound env fuel) (st : St) (p : Nat)
    (t : Bytes) (ret : BDict) (here : env.At p t) :
    (bDictParse env (fuel + 1) st p ret).Sat (dictPost env (fuel + 1) st p t ret) := by
  simp only [bDictParse, here.load]
  split
  next tag => exact ⟨by simp, fun _ rest same => absurd (by rw [same]; rfl) tag⟩
  next tag =>
    obtain ⟨rest, rfl⟩ := headD_cons (not_not.mp tag) (by decide)
    refine (sound.dictLoop st (p + 1) rest ret here.next).mono ?_ ?_ id ?_
    · rintro result st' ⟨parsed, gives⟩
      refine ⟨fun q next => ?_, fun none after same => ?_⟩
      · obtain ⟨w, after, es, rfl, rfl, reads, contents⟩ := parsed q next
        exact ⟨w, after, es, rfl, by omega, reads, contents⟩
      · cases same
        exact gives none
    · exact fun overrun => ⟨rest, rfl, overrun⟩
    · rintro (failing | short)
      · exact .inl failing
      · refine .inr ?_
        simp only [List.length_cons]
        omega

theorem bListLoop_past (env : Env) (fuel : Nat) (st : St) (q : Nat) (ret : BList)
    (past : env.buf.length < q) :
    (bListLoop env fuel st q ret).Sat ⟨fun _ _ => False, True, False, fuel = 0⟩ := by
  cases fuel with
  | zero => simp [bListLoop]
  | succ fuel => simp [bListLoop, Env.load_past past]

theorem bDictLoop_past (env : Env) (fuel : Nat) (st : St) (q : Nat) (ret : BDict)
    (past : env.buf.length < q) :
    (bDictLoop env fuel st q ret).Sat ⟨fun _ _ => False, True, False, fuel = 0⟩ := by
  cases fuel with
  | zero => simp [bDictLoop]
  | succ fuel => simp [bDictLoop, Env.load_past past]

theorem bListAdd_scan (env : Env) (st : St) (entry : BValue) (list : BList) :
    (bListAdd env st entry list).2.toScan = st.toScan.malloc env := by
  unfold bListAdd
  split <;> rfl

theorem bListAdd_erase (env : Env) (st : St) (entry : BValue) (list : BList) (vs : List Value) :
    eraseItems (bListAdd env st entry list).1.entries ++ vs =
      eraseItems list.entries ++ if env.alloc st.mallocs then entry.erase :: vs else vs := by
  unfold bListAdd
  split
  next => simp [eraseItems_append, eraseItems]
  next => rfl

theorem bDictAdd_scan (env : Env) (st : St) (entry : BValue) (key : BString) (dict : BDict) :
    (bDictAdd env st entry key dict).2.toScan = st.toScan.malloc env := by
  unfold bDictAdd
  split <;> rfl

theorem bDictAdd_erase (env : Env) (st : St) (entry : BValue) (key : BString) (dict : BDict)
    (es : List (Bytes × Value)) :
    eraseEntries (bDictAdd env st entry key dict).1.entries ++ es =
      eraseEntries dict.entries ++
        if env.alloc st.mallocs then (cutKey key.data, entry.erase) :: es else es := by
  unfold bDictAdd
  split
  next => simp [eraseEntries_append, eraseEntries, eraseVal, dEntryKey, cutKey]
  next => rfl

theorem overrun_ne_nil {env : Env} {place : Place} {s : Scan} {t : Bytes}
    (overrun : Overrun env place s t) : t ≠ [] := by
  induction overrun <;> simp_all

theorem bListLoop_parsed {env : Env} {fuel : Nat} (sound : Sound env fuel) {st st' : St} {p : Nat}
    {w rest : Bytes} {v : BValue} (ret : BList) (some : w ≠ []) (start : NoEnd w)
    (first : Reads env .any st.toScan w (.value v.erase) st'.toScan)
    (here : env.At p (w ++ rest)) :
    (bListLoop env fuel (bListAdd env st' v ret).2 (p + w.length) (bListAdd env st' v ret).1).Sat
      (listLoopPost env (fuel + 1) st p (w ++ rest) ret) := by
  refine (sound.listLoop (bListAdd env st' v ret).2 (p + w.length) rest
    (bListAdd env st' v ret).1 here.advance).mono ?_ ?_ id ?_
  · rintro result st₂ ⟨parsed, refused⟩
    refine ⟨fun q next => ?_, fun none => ?_⟩
    · obtain ⟨ws, after, vs, rfl, rfl, reads, contents⟩ := parsed q next
      rw [bListAdd_scan] at reads
      refine ⟨w ++ ws, after, _, by simp, by simp; omega, .cons start first reads, ?_⟩
      rw [contents, bListAdd_erase]
    · have refused := refused none
      rw [bListAdd_scan] at refused
      exact refused_of_comes (.later start first) refused
  · intro overrun
    change Overrun env .items (bListAdd env st' v ret).2.toScan rest at overrun
    rw [bListAdd_scan] at overrun
    exact .later start first overrun
  · rintro (failing | short)
    · exact .inl failing
    · refine .inr ?_
      have := List.length_pos_iff.mpr some
      simp only [List.length_append]
      omega

theorem bListLoop_step (env : Env) (fuel : Nat) (sound : Sound env fuel) (st : St) (p : Nat)
    (t : Bytes) (ret : BList) (here : env.At p t) :
    (bListLoop env (fuel + 1) st p ret).Sat (listLoopPost env (fuel + 1) st p t ret) := by
  simp only [bListLoop, here.load]
  split
  next last =>
    obtain ⟨rest, rfl⟩ := headD_cons last (by decide)
    refine ⟨fun q next => ?_, by simp⟩
    obtain rfl := Option.some.inj next
    exact ⟨[], rest, [], rfl, rfl, .nil, by simp⟩
  next more =>
    have start : NoEnd t := noEnd_of_headD more
    refine Sat.andThen (parseElement_sat _ _ sound.list sound.dict [] id t here)
      ?_ (fun overrun => .here start overrun) id ?_
    · intro element st' done
      cases element with
      | skipped =>
        obtain ⟨failed, scan⟩ := done
        refine (sound.listLoop st' p t ret here).mono ?_ ?_ id (fun _ => .inl ⟨_, failed⟩)
        · rintro result st₂ ⟨parsed, refused⟩
          refine ⟨fun q next => ?_, fun none => ?_⟩
          · obtain ⟨w, rest, vs, rfl, rfl, reads, contents⟩ := parsed q next
            have some : w ≠ [] := by
              rintro rfl
              exact start rfl
            rw [scan] at reads
            exact ⟨w, rest, vs, rfl, rfl, .retry (noEnd_append some start) some failed reads,
              contents⟩
          · have refused := refused none
            rw [scan] at refused
            exact refused_of_comes (.retry start failed) refused
        · intro overrun
          change Overrun env .items st'.toScan t at overrun
          rw [scan] at overrun
          exact .retry start failed overrun
      | rejected => exact ⟨by simp, fun _ => refused_of_comes (.here start) done⟩
      | parsed q v =>
        rcases done with ⟨w, rest, rfl, some, rfl, first⟩ | ⟨past, overrun⟩
        · exact bListLoop_parsed sound ret some (noEnd_append some start) first here
        · refine (bListLoop_past env fuel _ q _ past).mono (fun _ _ => False.elim)
            (fun _ => .here start overrun) False.elim ?_
          rintro rfl
          have := List.length_pos_iff.mpr (overrun_ne_nil overrun)
          exact .inr (by omega)
    · rintro (failing | short)
      · exact .inl failing
      · exact .inr (by omega)

theorem noEnd_text {text rest : Bytes} (start : NoEnd (text ++ rest)) : NoEnd text := by
  cases text with
  | nil => simp [NoEnd]
  | cons c text => simpa [NoEnd] using start

theorem bDictLoop_dropped {env : Env} {fuel : Nat} (sound : Sound env fuel) {st st' st₁ : St}
    {p : Nat} {text data rest : Bytes} (key : BString) (ret : BDict) (start : NoEnd text)
    (node : env.alloc st.mallocs = true)
    (read : TextRead env (st.malloc env).toScan text data st'.toScan)
    (failed : env.alloc st'.mallocs = false) (scan : st₁.toScan = st'.toScan.malloc env)
    (there : env.At (p + (text ++ 58 :: data).length) rest) :
    (bDictLoop env fuel (st₁.free (bStringFree key)) (p + (text ++ 58 :: data).length) ret).Sat
      (dictLoopPost env (fuel + 1) st p (text ++ 58 :: data ++ rest) ret) := by
  refine (sound.dictLoop (st₁.free (bStringFree key)) _ rest ret there).mono ?_ ?_ id
    (fun _ => .inl ⟨_, failed⟩)
  · rintro result st₂ ⟨parsed, gives⟩
    refine ⟨fun q next => ?_, fun none => ?_⟩
    · obtain ⟨w, after, es, rfl, rfl, reads, contents⟩ := parsed q next
      change Reads env .any st₁.toScan w _ _ at reads
      rw [scan] at reads
      exact ⟨text ++ 58 :: data ++ w, after, es, by simp, by simp; omega,
        .drop start node read failed reads, contents⟩
    · obtain ⟨es, gives, contents⟩ := gives none
      change GivesUp env st₁.toScan rest es at gives
      rw [scan] at gives
      exact ⟨es, .drop start node read failed gives, contents⟩
  · intro overrun
    change Overrun env .entries st₁.toScan rest at overrun
    rw [scan] at overrun
    exact .drop start node read failed overrun

theorem bDictLoop_parsed {env : Env} {fuel : Nat} (sound : Sound env fuel) {st st' st₁ : St}
    {p : Nat} {text data w after : Bytes} {key : BString} {v : BValue} (ret : BDict)
    (start : NoEnd text) (node : env.alloc st.mallocs = true)
    (read : TextRead env (st.malloc env).toScan text data st'.toScan) (stored : key.data = data)
    (first : Reads env .any st'.toScan w (.value v.erase) st₁.toScan)
    (there : env.At (p + (text ++ 58 :: data).length) (w ++ after)) :
    (bDictLoop env fuel ((bDictAdd env st₁ v key ret).2.free (bStringFree key))
      (p + (text ++ 58 :: data).length + w.length) (bDictAdd env st₁ v key ret).1).Sat
      (dictLoopPost env (fuel + 1) st p (text ++ 58 :: data ++ (w ++ after)) ret) := by
  refine (sound.dictLoop ((bDictAdd env st₁ v key ret).2.free (bStringFree key)) _ after
    (bDictAdd env st₁ v key ret).1 there.advance).mono ?_ ?_ id ?_
  · rintro result st₂ ⟨parsed, gives⟩
    refine ⟨fun q next => ?_, fun none => ?_⟩
    · obtain ⟨ws, last, es, rfl, rfl, reads, contents⟩ := parsed q next
      change Reads env .any (bDictAdd env st₁ v key ret).2.toScan ws _ _ at reads
      rw [bDictAdd_scan] at reads
      refine ⟨text ++ 58 :: data ++ w ++ ws, last, _, by simp, by simp; omega,
        .entry start node read trivial trivial first reads, ?_⟩
      rw [contents, bDictAdd_erase, stored]
    · obtain ⟨es, gives, contents⟩ := gives none
      change GivesUp env (bDictAdd env st₁ v key ret).2.toScan after es at gives
      rw [bDictAdd_scan] at gives
      rw [← List.append_assoc]
      refine ⟨_, .entry start node read first gives, ?_⟩
      rw [contents, bDictAdd_erase, stored]
  · intro overrun
    change Overrun env .entries (bDictAdd env st₁ v key ret).2.toScan after at overrun
    rw [bDictAdd_scan] at overrun
    change Overrun env .entries st.toScan (text ++ 58 :: data ++ (w ++ after))
    rw [← List.append_assoc]
    exact .entry start node read first overrun
  · rintro (failing | short)
    · exact .inl failing
    · refine .inr ?_
      simp only [List.length_append, List.length_cons]
      omega

theorem bDictLoop_step (env : Env) (fuel : Nat) (sound : Sound env fuel) (st : St) (p : Nat)
    (t : Bytes) (ret : BDict) (here : env.At p t) :
    (bDictLoop env (fuel + 1) st p ret).Sat (dictLoopPost env (fuel + 1) st p t ret) := by
  simp only [bDictLoop, here.load]
  split
  next last =>
    obtain ⟨rest, rfl⟩ := headD_cons last (by decide)
    refine ⟨fun q next => ?_, by simp⟩
    obtain rfl := Option.some.inj next
    exact ⟨[], rest, [], rfl, rfl, .done, by simp⟩
  next more =>
    have start : NoEnd t := noEnd_of_headD more
    split
    next failed => exact ⟨by simp, fun _ => ⟨[], .node start failed, by simp⟩⟩
    next allocated =>
      have node : env.alloc st.mallocs = true := by simpa using allocated
      refine Sat.andThen (bStringParse_sat env (st.malloc env) p t _ here) ?_
        (fun overrun => .key start node overrun) id False.elim
      rintro ⟨next, key⟩ st' ⟨parsed, refuses⟩
      cases next with
      | none => exact ⟨by simp, fun _ => ⟨[], .key start node (refuses rfl), by simp⟩⟩
      | some q =>
        rcases parsed q rfl with ⟨text, data, rest, found⟩ | ⟨past, overrun⟩
        · obtain ⟨rfl, rfl, read, stored, -⟩ := found
          change key.data = data at stored
          have front : NoEnd text := noEnd_text (by simpa using start)
          have there : env.At (p + (text ++ 58 :: data).length) rest := here.advance
          simp only [there.load]
          refine Sat.andThen (parseElement_sat _ _ sound.list sound.dict _ _ rest there) ?_
            (fun overrun => .value front node read overrun) id ?_
          · intro element st₁ done
            cases element with
            | skipped =>
              obtain ⟨failed, scan⟩ := done
              exact bDictLoop_dropped sound key ret front node read failed scan there
            | rejected =>
              exact ⟨by simp, fun _ => ⟨[], .value front node read done, by simp⟩⟩
            | parsed q v =>
              rcases done with ⟨w, after, rfl, some, rfl, first⟩ | ⟨past, overrun⟩
              · exact bDictLoop_parsed sound ret front node read stored first there
              · refine (bDictLoop_past env fuel _ q _ past).mono (fun _ _ => False.elim)
                  (fun _ => .value front node read overrun) False.elim ?_
                rintro rfl
                refine .inr ?_
                simp only [List.length_append, List.length_cons]
                omega
          · rintro (failing | short)
            · exact .inl failing
            · refine .inr ?_
              simp only [List.length_append, List.length_cons]
              omega
        · simp only [Env.load_past past]
          exact .key start node overrun

theorem parse_sound (env : Env) (fuel : Nat) : Sound env fuel := by
  induction fuel with
  | zero =>
    constructor
    · intro st p t ret here
      rw [bListParse]
      exact Or.inr (by omega)
    · intro st p t ret here
      rw [bListLoop]
      exact Or.inr (by omega)
    · intro st p t ret here
      rw [bDictParse]
      exact Or.inr (by omega)
    · intro st p t ret here
      rw [bDictLoop]
      exact Or.inr (by omega)
  | succ fuel sound =>
    exact ⟨bListParse_step env fuel sound, bListLoop_step env fuel sound,
      bDictParse_step env fuel sound, bDictLoop_step env fuel sound⟩

end BTServer.Bencode
