import BTServer.Bencode.Sound

set_option autoImplicit false

namespace BTServer.Bencode

open CString Outcome

-- The bodies of the two loops, from the test of `*ptr` until it is made again.
def bListRound (env : Env) (fuel : Nat) (st : St) (ptr : Nat) (ret : BList) :
    Outcome St (Round (Nat × BList) (Option Nat × BList)) :=
  match env.load ptr with
  | none => .fault st
  | some c =>
    if c = 101 then .done (.leave (some (ptr + 1), ret)) st
    else
      (parseElement env (bListParse env fuel) (bDictParse env fuel) [] id st ptr c).andThen
        fun element st =>
          match element with
          | .skipped => .done (.again (ptr, ret)) st
          | .rejected => .done (.leave (none, ret)) st
          | .parsed ptr value =>
            let (ret, st) := bListAdd env st value ret
            .done (.again (ptr, ret)) st

theorem bListLoop_rounds (env : Env) (fuel : Nat) (st : St) (ptr : Nat) (ret : BList) :
    bListLoop env (fuel + 1) st ptr ret = (bListRound env fuel st ptr ret).rounds
      fun (ptr, ret) st => bListLoop env fuel st ptr ret := by
  rw [bListLoop, bListRound, rounds]
  cases env.load ptr with
  | none => rfl
  | some c =>
    dsimp only
    split
    next => rfl
    next =>
      rw [andThen_andThen]
      congr 1
      funext element st
      cases element <;> rfl

def bDictRound (env : Env) (fuel : Nat) (st : St) (ptr : Nat) (ret : BDict) :
    Outcome St (Round (Nat × BDict) (Option Nat × BDict)) :=
  match env.load ptr with
  | none => .fault st
  | some c =>
    if c = 101 then .done (.leave (some (ptr + 1), ret)) st
    else if env.alloc st.mallocs = false then .done (.leave (none, ret)) (st.malloc env)
    else
      (bStringParse env (st.malloc env) ptr (bStringAlloc st.mallocs)).andThen fun (next, key) st =>
        match next with
        | none => .done (.leave (none, ret)) (st.free (bStringFree key))
        | some ptr =>
          match env.load ptr with
          | none => .fault st
          | some c =>
            (parseElement env (bListParse env fuel) (bDictParse env fuel) (bStringFree key)
              (fun st => st.print .error "b_dict_parse" 657 (ascii "Error list entry type\n"))
              st ptr c).andThen fun element st =>
                match element with
                | .skipped => .done (.again (ptr, ret)) (st.free (bStringFree key))
                | .rejected => .done (.leave (none, ret)) st
                | .parsed ptr value =>
                  let (ret, st) := bDictAdd env st value key ret
                  .done (.again (ptr, ret)) (st.free (bStringFree key))

theorem bDictLoop_rounds (env : Env) (fuel : Nat) (st : St) (ptr : Nat) (ret : BDict) :
    bDictLoop env (fuel + 1) st ptr ret = (bDictRound env fuel st ptr ret).rounds
      fun (ptr, ret) st => bDictLoop env fuel st ptr ret := by
  rw [bDictLoop, bDictRound, rounds]
  cases env.load ptr with
  | none => rfl
  | some c =>
    dsimp only
    split
    next => rfl
    next =>
      split
      next => rfl
      next =>
        rw [andThen_andThen]
        congr 1
        funext result st
        obtain ⟨next, key⟩ := result
        cases next with
        | none => rfl
        | some ptr =>
          dsimp only
          cases env.load ptr with
          | none => rfl
          | some c =>
            dsimp only
            rw [andThen_andThen]
            congr 1
            funext element st
            cases element <;> rfl

theorem parsed_forward {env : Env} {fuel : Nat} {st st' : St} {p q : Nat} {t : Bytes} {v : BValue}
    (here : env.At p t) (done : (elementPost env fuel st p t).done (.parsed q v) st') : p < q := by
  rcases done with ⟨w, rest, -, some, rfl, -⟩ | ⟨past, -⟩
  next =>
    have := List.length_pos_iff.mpr some
    omega
  next =>
    have := here.1
    omega

theorem at_of_load {env : Env} {p : Nat} {c : UInt8} (loaded : env.load p = some c) :
    ∃ t, env.At p t ∧ t.headD 0 = c := by
  by_cases inside : p ≤ env.buf.length
  next =>
    have here : env.At p (env.buf.drop p) := ⟨inside, rfl⟩
    refine ⟨_, here, ?_⟩
    rw [here.load] at loaded
    exact Option.some.inj loaded
  next =>
    rw [Env.load_past (by omega)] at loaded
    simp at loaded

def Forward {α β : Type} (ptr : Nat) : Post St (Round (Nat × α) β) where
  done round _ := ∀ next, round = .again next → ptr < next.1
  fault := True
  crash := True
  timeout := True

theorem bListRound_forward {env : Env} (mallocs : Allocates env) (fuel : Nat) (st : St) (ptr : Nat)
    (ret : BList) : (bListRound env fuel st ptr ret).Sat (Forward ptr) := by
  unfold bListRound
  split
  next => trivial
  next c loaded =>
    obtain ⟨t, here, rfl⟩ := at_of_load loaded
    split
    next => simp [Forward]
    next =>
      have sound := parse_sound env fuel
      refine Sat.andThen (parseElement_sat _ _ sound.list sound.dict [] id t here) ?_
        (fun _ => trivial) (fun _ => trivial) (fun _ => trivial)
      intro element st' done
      cases element with
      | skipped => exact absurd ⟨_, done.1⟩ mallocs.not_failing
      | rejected => simp [Forward]
      | parsed q v =>
        rintro next ⟨⟩
        exact parsed_forward here done

theorem bDictRound_forward {env : Env} (mallocs : Allocates env) (fuel : Nat) (st : St) (ptr : Nat)
    (ret : BDict) : (bDictRound env fuel st ptr ret).Sat (Forward ptr) := by
  unfold bDictRound
  split
  next => trivial
  next c loaded =>
    obtain ⟨t, here, rfl⟩ := at_of_load loaded
    split
    next => simp [Forward]
    next =>
      split
      next => simp [Forward]
      next =>
        refine Sat.andThen (bStringParse_sat env (st.malloc env) ptr t _ here) ?_ (fun _ => trivial)
          (fun _ => trivial) (fun _ => trivial)
        rintro ⟨next, key⟩ st₁ done
        cases next with
        | none => simp [Forward]
        | some q =>
          rcases done.1 q rfl with ⟨text, data, rest, found⟩ | ⟨past, -⟩
          next =>
            obtain ⟨rfl, rfl, -, -, -⟩ := found
            have there : env.At (ptr + (text ++ 58 :: data).length) rest := here.advance
            have sound := parse_sound env fuel
            simp only [there.load]
            refine Sat.andThen (parseElement_sat _ _ sound.list sound.dict _ _ rest there) ?_
              (fun _ => trivial) (fun _ => trivial) (fun _ => trivial)
            intro element st' done
            cases element with
            | skipped => exact absurd ⟨_, done.1⟩ mallocs.not_failing
            | rejected => simp [Forward]
            | parsed q v =>
              rintro next ⟨⟩
              have := parsed_forward there done
              dsimp only
              omega
          next =>
            simp only [Env.load_past past]
            trivial

def endsForward {α : Type} (p : Nat) : Post St (Option Nat × α) where
  done result _ := ∀ q, result.1 = some q → p < q
  fault := True
  crash := False
  timeout := False

theorem endsForward_of_sat {α : Type} {o : Outcome St (Option Nat × α)}
    {post : Post St (Option Nat × α)} {p : Nat} (sat : o.Sat post)
    (moves : ∀ result st q, post.done result st → result.1 = some q → p < q)
    (crash : ¬ post.crash) (timeout : ¬ post.timeout) : o.Sat (endsForward p) :=
  sat.mono (fun result st done q next => moves result st q done next) (fun _ => trivial) crash
    timeout

theorem Allocates.in_time {env : Env} (mallocs : Allocates env) {fuel : Nat}
    (enough : 2 * env.buf.length + 1 ≤ fuel) (p : Nat) :
    ¬ parseTimeout env fuel (env.buf.drop p) := by
  rintro (failing | short)
  next => exact mallocs.not_failing failing
  next =>
    simp only [List.length_drop] at short
    omega

theorem bListParse_endsForward {env : Env} (mallocs : Allocates env) (fuel : Nat)
    (enough : 2 * env.buf.length + 1 ≤ fuel) (st : St) (p : Nat) (ret : BList) :
    (bListParse env fuel st p ret).Sat (endsForward p) := by
  by_cases inside : p ≤ env.buf.length
  next =>
    have here : env.At p (env.buf.drop p) := ⟨inside, rfl⟩
    refine endsForward_of_sat ((parse_sound env fuel).list st p _ ret here) ?_ mallocs.not_failing
      (mallocs.in_time enough p)
    intro result st' q done next
    obtain ⟨w, rest, vs, -, rfl, -, -⟩ := done.1 q next
    omega
  next =>
    obtain ⟨fuel, rfl⟩ : ∃ n, fuel = n + 1 := ⟨fuel - 1, by omega⟩
    simp only [bListParse, Env.load_past (Nat.lt_of_not_le inside)]
    trivial

theorem bDictParse_endsForward {env : Env} (mallocs : Allocates env) (fuel : Nat)
    (enough : 2 * env.buf.length + 1 ≤ fuel) (st : St) (p : Nat) (ret : BDict) :
    (bDictParse env fuel st p ret).Sat (endsForward p) := by
  by_cases inside : p ≤ env.buf.length
  next =>
    have here : env.At p (env.buf.drop p) := ⟨inside, rfl⟩
    refine endsForward_of_sat ((parse_sound env fuel).dict st p _ ret here) ?_ mallocs.not_failing
      (mallocs.in_time enough p)
    intro result st' q done next
    obtain ⟨w, rest, es, -, rfl, -, -⟩ := done.1 q next
    omega
  next =>
    obtain ⟨fuel, rfl⟩ : ∃ n, fuel = n + 1 := ⟨fuel - 1, by omega⟩
    simp only [bDictParse, Env.load_past (Nat.lt_of_not_le inside)]
    trivial

/-- The calls end in time. The loops are their rounds, and every round that comes to the test again
has moved on. -/
structure Progresses (env : Env) : Prop where
  list : ∀ fuel st p ret, 2 * env.buf.length + 1 ≤ fuel →
    (bListParse env fuel st p ret).Sat (endsForward p)
  dict : ∀ fuel st p ret, 2 * env.buf.length + 1 ≤ fuel →
    (bDictParse env fuel st p ret).Sat (endsForward p)
  listLoop : ∀ fuel st ptr ret, bListLoop env (fuel + 1) st ptr ret =
    (bListRound env fuel st ptr ret).rounds fun (ptr, ret) st => bListLoop env fuel st ptr ret
  dictLoop : ∀ fuel st ptr ret, bDictLoop env (fuel + 1) st ptr ret =
    (bDictRound env fuel st ptr ret).rounds fun (ptr, ret) st => bDictLoop env fuel st ptr ret
  listRound : ∀ fuel st ptr ret st' ptr' ret',
    bListRound env fuel st ptr ret = .done (.again (ptr', ret')) st' →
      bListLoop env (fuel + 1) st ptr ret = bListLoop env fuel st' ptr' ret' ∧ ptr < ptr'
  dictRound : ∀ fuel st ptr ret st' ptr' ret',
    bDictRound env fuel st ptr ret = .done (.again (ptr', ret')) st' →
      bDictLoop env (fuel + 1) st ptr ret = bDictLoop env fuel st' ptr' ret' ∧ ptr < ptr'

theorem parse_progresses (env : Env) (mallocs : Allocates env) : Progresses env where
  list fuel st p ret enough := bListParse_endsForward mallocs fuel enough st p ret
  dict fuel st p ret enough := bDictParse_endsForward mallocs fuel enough st p ret
  listLoop := bListLoop_rounds env
  dictLoop := bDictLoop_rounds env
  listRound := by
    intro fuel st ptr ret st' ptr' ret' round
    have forward := bListRound_forward mallocs fuel st ptr ret
    rw [round] at forward
    rw [bListLoop_rounds, round]
    exact ⟨rfl, forward _ rfl⟩
  dictRound := by
    intro fuel st ptr ret st' ptr' ret' round
    have forward := bDictRound_forward mallocs fuel st ptr ret
    rw [round] at forward
    rw [bDictLoop_rounds, round]
    exact ⟨rfl, forward _ rfl⟩

theorem negative_length_progresses :
    Allocates (.plentiful (ascii "d-5:abcde")) ∧
      Progresses (.plentiful (ascii "d-5:abcde")) :=
  ⟨fun _ => rfl, parse_progresses _ fun _ => rfl⟩

end BTServer.Bencode
