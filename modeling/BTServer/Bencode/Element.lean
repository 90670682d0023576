import BTServer.Bencode.Scalars

set_option autoImplicit false

namespace BTServer.Bencode

open CString Outcome

def loopTimeout (env : Env) (fuel : Nat) (t : Bytes) : Prop := Failing env ∨ fuel < 2 * t.length + 1

def parseTimeout (env : Env) (fuel : Nat) (t : Bytes) : Prop :=
  Failing env ∨ fuel < max 1 (2 * t.length)

def listPost (env : Env) (fuel : Nat) (st : St) (p : Nat) (t : Bytes) (ret : BList) :
    Post St (Option Nat × BList) where
  done result st' := (∀ q, result.1 = some q → ∃ w rest vs, t = 108 :: (w ++ 101 :: rest) ∧
    q = p + (w.length + 2) ∧ Reads env .any st.toScan w (.items vs) st'.toScan ∧
      eraseItems result.2.entries = eraseItems ret.entries ++ vs) ∧
    (result.1 = none → ∀ rest, t = 108 :: rest → Refused env .items st.toScan rest)
  fault := ∃ rest, t = 108 :: rest ∧ Overrun env .items st.toScan rest
  crash := Failing env
  timeout := parseTimeout env fuel t

def dictPost (env : Env) (fuel : Nat) (st : St) (p : Nat) (t : Bytes) (ret : BDict) :
    Post St (Option Nat × BDict) where
  done result st' := (∀ q, result.1 = some q → ∃ w rest es, t = 100 :: (w ++ 101 :: rest) ∧
    q = p + (w.length + 2) ∧ Reads env .any st.toScan w (.entries es) st'.toScan ∧
      eraseEntries result.2.entries = eraseEntries ret.entries ++ es) ∧
    (result.1 = none → ∀ rest, t = 100 :: rest → ∃ es, GivesUp env st.toScan rest es ∧
      eraseEntries result.2.entries = eraseEntries ret.entries ++ es)
  fault := ∃ rest, t = 100 :: rest ∧ Overrun env .entries st.toScan rest
  crash := Failing env
  timeout := parseTimeout env fuel t

def listLoopPost (env : Env) (fuel : Nat) (st : St) (p : Nat) (t : Bytes) (ret : BList) :
    Post St (Option Nat × BList) where
  done result st' := (∀ q, result.1 = some q → ∃ w rest vs, t = w ++ 101 :: rest ∧
    q = p + (w.length + 1) ∧ Reads env .any st.toScan w (.items vs) st'.toScan ∧
      eraseItems result.2.entries = eraseItems ret.entries ++ vs) ∧
    (result.1 = none → Refused env .items st.toScan t)
  fault := Overrun env .items st.toScan t
  crash := Failing env
  timeout := loopTimeout env fuel t

def dictLoopPost (env : Env) (fuel : Nat) (st : St) (p : Nat) (t : Bytes) (ret : BDict) :
    Post St (Option Nat × BDict) where
  done result st' := (∀ q, result.1 = some q → ∃ w rest es, t = w ++ 101 :: rest ∧
    q = p + (w.length + 1) ∧ Reads env .any st.toScan w (.entries es) st'.toScan ∧
      eraseEntries result.2.entries = eraseEntries ret.entries ++ es) ∧
    (result.1 = none → ∃ es, GivesUp env st.toScan t es ∧
      eraseEntries result.2.entries = eraseEntries ret.entries ++ es)
  fault := Overrun env .entries st.toScan t
  crash := Failing env
  timeout := loopTimeout env fuel t

def elementPost (env : Env) (fuel : Nat) (st : St) (p : Nat) (t : Bytes) : Post St Element where
  done element st' := match element with
    | .skipped => env.alloc st.mallocs = false ∧ st'.toScan = st.toScan.malloc env
    | .rejected => Refused env .value st.toScan t
    | .parsed q v =>
      (∃ w rest, t = w ++ rest ∧ w ≠ [] ∧ q = p + w.length ∧
        Reads env .any st.toScan w (.value v.erase) st'.toScan) ∨
      (env.buf.length < q ∧ Overrun env .value st.toScan t)
  fault := Overrun env .value st.toScan t
  crash := Failing env
  timeout := Failing env ∨ fuel < 2 * t.length

theorem headD_cons {t : Bytes} {c : UInt8} (head : t.headD 0 = c) (some : c ≠ 0) :
    ∃ rest, t = c :: rest := by
  cases t with
  | nil => exact absurd head.symm some
  | cons x rest => exact ⟨rest, by simp at head; rw [head]⟩

section Element

variable {env : Env} {fuel : Nat} {st : St} {p : Nat}

theorem list_element {rest : Bytes} (node : env.alloc st.mallocs = true) (release : List Nat)
    {call : Outcome St (Option Nat × BList)} (sat : call.Sat
      (listPost env fuel (st.malloc env) p (108 :: rest) (bListAlloc st.mallocs))) :
    (call.andThen fun (next, l) st =>
      match next with
      | some ptr => .done (.parsed ptr (.list l)) st
      | none => .done .rejected ((st.free release).free (bListFree l))).Sat
      (elementPost env fuel st p (108 :: rest)) := by
  refine Sat.andThen sat ?_ ?_ id ?_
  · rintro ⟨next, l⟩ st' ⟨parsed, refused⟩
    cases next with
    | none => exact refused_of_comes (.list node) (refused rfl rest rfl)
    | some q =>
      obtain ⟨w, after, vs, split, rfl, reads, contents⟩ := parsed q rfl
      refine .inl ⟨108 :: (w ++ [101]), after, by simpa using split, by simp, by simp, ?_⟩
      have erased : (BValue.list l).erase = .list vs := by
        simpa [BValue.erase, bListAlloc, eraseItems] using contents
      rw [erased]
      exact .list node reads
  · rintro ⟨after, split, overrun⟩
    change Overrun env .value st.toScan (108 :: rest)
    rw [split]
    exact .list node overrun
  · rintro (failing | short)
    · exact .inl failing
    · refine .inr ?_
      simp only [List.length_cons] at short ⊢
      omega

theorem dict_element {rest : Bytes} (node : env.alloc st.mallocs = true) (release : List Nat)
    {call : Outcome St (Option Nat × BDict)} (sat : call.Sat
      (dictPost env fuel (st.malloc env) p (100 :: rest) (bDictAlloc st.mallocs))) :
    (call.andThen fun (next, d) st =>
      match next with
      | some ptr => .done (.parsed ptr (.dict d)) st
      | none => .done .rejected ((st.free release).free (bDictFree d))).Sat
      (elementPost env fuel st p (100 :: rest)) := by
  refine Sat.andThen sat ?_ ?_ id ?_
  · rintro ⟨next, d⟩ st' ⟨parsed, refused⟩
    cases next with
    | none =>
      obtain ⟨es, gives, -⟩ := refused rfl rest rfl
      exact refused_of_comes (.dict node) gives.refused
    | some q =>
      obtain ⟨w, after, es, split, rfl, reads, contents⟩ := parsed q rfl
      refine .inl ⟨100 :: (w ++ [101]), after, by simpa using split, by simp, by simp, ?_⟩
      have erased : (BValue.dict d).erase = .dict es := by
        simpa [BValue.erase, bDictAlloc, eraseEntries] using contents
      rw [erased]
      exact .dict node reads
  · rintro ⟨after, split, overrun⟩
    change Overrun env .value st.toScan (100 :: rest)
    rw [split]
    exact .dict node overrun
  · rintro (failing | short)
    · exact .inl failing
    · refine .inr ?_
      simp only [List.length_cons] at short ⊢
      omega

theorem string_element {t : Bytes} (node : env.alloc st.mallocs = true) (tag : NoTag t)
    (here : env.At p t) (release : List Nat) (complain : St → St) :
    ((bStringParse env (st.malloc env) p (bStringAlloc st.mallocs)).andThen fun (next, s) st =>
      match next with
      | some ptr => .done (.parsed ptr (.string s)) st
      | none => .done .rejected (complain ((st.free release).free (bStringFree s)))).Sat
      (elementPost env fuel st p t) := by
  refine Sat.andThen (bStringParse_sat env (st.malloc env) p t _ here) ?_ ?_ id False.elim
  · rintro ⟨next, s⟩ st' ⟨parsed, refuses⟩
    cases next with
    | none => exact refused_of_comes (.str node tag) (refuses rfl).refused
    | some q =>
      rcases parsed q rfl with ⟨text, data, rest, found⟩ | ⟨past, overrun⟩
      · refine .inl ⟨text ++ 58 :: data, rest, found.split, by simp, found.next, ?_⟩
        have stored : s.data = data := found.stored
        have sized : s.len.toNat = data.length % 2 ^ 32 := found.sized
        rw [BValue.erase, stored, sized]
        refine .str node ?_ found.read trivial
        intro c head
        refine tag c ?_
        rw [found.split]
        cases text with
        | nil => simp at head
        | cons x text => simpa using head
      · exact .inr ⟨past, .str node tag overrun⟩
  · exact fun overrun => .str node tag overrun

theorem parseElement_sat (list : St → Nat → BList → Outcome St (Option Nat × BList))
    (dict : St → Nat → BDict → Outcome St (Option Nat × BDict))
    (lists : ∀ st p t ret, env.At p t → (list st p ret).Sat (listPost env fuel st p t ret))
    (dicts : ∀ st p t ret, env.At p t → (dict st p ret).Sat (dictPost env fuel st p t ret))
    (release : List Nat) (complain : St → St) (t : Bytes) (here : env.At p t) :
    (parseElement env list dict release complain st p (t.headD 0)).Sat
      (elementPost env fuel st p t) := by
  unfold parseElement
  dsimp only
  split
  next failed => exact ⟨failed, rfl⟩
  next allocated =>
    have node : env.alloc st.mallocs = true := by simpa using allocated
    split
    next tag =>
      obtain ⟨rest, rfl⟩ := headD_cons tag (by decide)
      exact list_element node release (lists (st.malloc env) p _ _ here)
    next =>
      split
      next tag =>
        obtain ⟨rest, rfl⟩ := headD_cons tag (by decide)
        refine Sat.andThen (bIntParse_sat env st p rest _ here node) ?_ False.elim False.elim
          False.elim
        rintro ⟨next, i⟩ st' ⟨parsed, refuses⟩
        cases next with
        | none => exact (refuses rfl).refused
        | some q => exact .inl (parsed q rfl)
      next =>
        split
        next tag =>
          obtain ⟨rest, rfl⟩ := headD_cons tag (by decide)
          exact dict_element node release (dicts (st.malloc env) p _ _ here)
        next noList noInt noDict =>
          have tag : NoTag t := by
            intro c head
            have same : t.headD 0 = c := by simp [head]
            rw [same] at noList noInt noDict
            exact ⟨noList, noInt, noDict⟩
          exact string_element node tag here release complain

end Element

end BTServer.Bencode
