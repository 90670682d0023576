import BTServer.Bencode.Model

set_option autoImplicit false

namespace BTServer.Bencode

open Outcome

theorem parseElement_extends (env : Env)
    {list list' : St → Nat → BList → Outcome St (Option Nat × BList)}
    {dict dict' : St → Nat → BDict → Outcome St (Option Nat × BDict)}
    (lists : ∀ st p ret, (list st p ret).Extends (list' st p ret))
    (dicts : ∀ st p ret, (dict st p ret).Extends (dict' st p ret)) (release : List Nat)
    (complain : St → St) (st : St) (p : Nat) (c : UInt8) :
    (parseElement env list dict release complain st p c).Extends
      (parseElement env list' dict' release complain st p c) := by
  unfold parseElement
  dsimp only
  split
  next => exact .refl _
  next =>
    split
    next => exact (lists _ _ _).andThen fun _ _ => .refl _
    next =>
      split
      next => exact .refl _
      next =>
        split
        next => exact (dicts _ _ _).andThen fun _ _ => .refl _
        next => exact .refl _

structure Extended (env : Env) (fuel fuel' : Nat) : Prop where
  list : ∀ st p ret, (bListParse env fuel st p ret).Extends (bListParse env fuel' st p ret)
  listLoop : ∀ st p ret, (bListLoop env fuel st p ret).Extends (bListLoop env fuel' st p ret)
  dict : ∀ st p ret, (bDictParse env fuel st p ret).Extends (bDictParse env fuel' st p ret)
  dictLoop : ∀ st p ret, (bDictLoop env fuel st p ret).Extends (bDictLoop env fuel' st p ret)

theorem Extended.step {env : Env} {fuel fuel' : Nat} (more : Extended env fuel fuel') :
    Extended env (fuel + 1) (fuel' + 1) := by
  constructor
  · intro st p ret
    rw [bListParse, bListParse]
    split
    next => exact .refl _
    next =>
      split
      next => exact .refl _
      next => exact more.listLoop _ _ _
  · intro st p ret
    rw [bListLoop, bListLoop]
    split
    next => exact .refl _
    next =>
      split
      next => exact .refl _
      next =>
        apply (parseElement_extends env more.list more.dict _ _ _ _ _).andThen
        intro element st'
        cases element with
        | skipped => exact more.listLoop _ _ _
        | rejected => exact .refl _
        | parsed q v => exact more.listLoop _ _ _
  · intro st p ret
    rw [bDictParse, bDictParse]
    split
    next => exact .refl _
    next =>
      split
      next => exact .refl _
      next => exact more.dictLoop _ _ _
  · intro st p ret
    rw [bDictLoop, bDictLoop]
    split
    next => exact .refl _
    next =>
      split
      next => exact .refl _
      next =>
        split
        next => exact .refl _
        next =>
          apply (Extends.refl _).andThen
          rintro ⟨next, key⟩ st₁
          cases next with
          | none => exact .refl _
          | some q =>
            dsimp only
            split
            next => exact .refl _
            next =>
              apply (parseElement_extends env more.list more.dict _ _ _ _ _).andThen
              intro element st₂
              cases element with
              | skipped => exact more.dictLoop _ _ _
              | rejected => exact .refl _
              | parsed r v => exact more.dictLoop _ _ _

theorem parse_extended (env : Env) (fuel more : Nat) : Extended env fuel (fuel + more) := by
  induction fuel with
  | zero =>
    constructor
    all_goals
      intro st p ret
      refine .inl ⟨st, ?_⟩
      simp only [bListParse, bListLoop, bDictParse, bDictLoop]
  | succ fuel ih =>
    rw [Nat.add_right_comm]
    exact ih.step

theorem bDictParse_grows (env : Env) (st : St) (p : Nat) (d : BDict) :
    Grows (bDictParse env · st p d) := fun fuel more => (parse_extended env fuel more).dict st p d

theorem bDictParse_more {env : Env} {fuel fuel' : Nat} {st st' : St} {p : Nat} {d : BDict}
    {result : Option Nat × BDict} (le : fuel ≤ fuel')
    (ended : bDictParse env fuel st p d = .done result st') :
    bDictParse env fuel' st p d = .done result st' := by
  obtain ⟨more, rfl⟩ := Nat.exists_eq_add_of_le le
  rw [(bDictParse_grows env st p d).ended (by simp [ended]) more, ended]

theorem bDictParse_inside {env : Env} {fuel : Nat} {st st' : St} {p : Nat} {d : BDict}
    {result : Option Nat × BDict} (ended : bDictParse env fuel st p d = .done result st')
    (fuel' : Nat) (st'' : St) : bDictParse env fuel' st p d ≠ .fault st'' := by
  intro fault
  rcases Nat.le_total fuel fuel' with le | le
  · rw [bDictParse_more le ended] at fault
    contradiction
  · obtain ⟨more, rfl⟩ := Nat.exists_eq_add_of_le le
    have returned (st₁ : St) : bDictParse env fuel' st p d ≠ .timeout st₁ := by simp [fault]
    have same := (bDictParse_grows env st p d).ended returned more
    rw [ended, fault] at same
    contradiction

end BTServer.Bencode
