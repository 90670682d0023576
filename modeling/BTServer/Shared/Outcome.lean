set_option autoImplicit false

namespace BTServer

-- How a call ends: it returns, reads outside its input, uses a null pointer or is still running
-- when the steps allowed to it are used up.
inductive Outcome (σ α : Type) where
  | done (result : α) (st : σ)
  | fault (st : σ)
  | crash (st : σ)
  | timeout (st : σ)

namespace Outcome

variable {σ α β : Type}

def andThen (o : Outcome σ α) (f : α → σ → Outcome σ β) : Outcome σ β :=
  match o with
  | .done result st => f result st
  | .fault st => .fault st
  | .crash st => .crash st
  | .timeout st => .timeout st

@[simp] theorem done_andThen (result : α) (st : σ) (f : α → σ → Outcome σ β) :
    (done result st).andThen f = f result st := rfl

@[simp] theorem fault_andThen (st : σ) (f : α → σ → Outcome σ β) :
    (fault st).andThen f = .fault st := rfl

@[simp] theorem crash_andThen (st : σ) (f : α → σ → Outcome σ β) :
    (crash st).andThen f = .crash st := rfl

theorem andThen_andThen {γ : Type} (o : Outcome σ α) (f : α → σ → Outcome σ β)
    (g : β → σ → Outcome σ γ) :
    (o.andThen f).andThen g = o.andThen fun result st => (f result st).andThen g := by
  cases o <;> rfl

theorem andThen_eq_done {o : Outcome σ α} {f : α → σ → Outcome σ β} {result : β} {st' : σ}
    (returned : o.andThen f = .done result st') :
    ∃ x st, o = .done x st ∧ f x st = .done result st' := by
  cases o with
  | done x st => exact ⟨x, st, rfl, returned⟩
  | fault st => cases returned
  | crash st => cases returned
  | timeout st => cases returned

structure Post (σ α : Type) where
  done : α → σ → Prop
  fault : Prop
  crash : Prop
  timeout : Prop

def Sat (o : Outcome σ α) (post : Post σ α) : Prop :=
  match o with
  | .done result st => post.done result st
  | .fault _ => post.fault
  | .crash _ => post.crash
  | .timeout _ => post.timeout

@[simp] theorem sat_done (result : α) (st : σ) (post : Post σ α) :
    (done result st).Sat post ↔ post.done result st := Iff.rfl

@[simp] theorem sat_fault (st : σ) (post : Post σ α) : (fault st).Sat post ↔ post.fault := Iff.rfl

@[simp] theorem sat_timeout (st : σ) (post : Post σ α) :
    (timeout st).Sat post ↔ post.timeout := Iff.rfl

theorem Sat.returns {o : Outcome σ α} {post : Post σ α} (sat : o.Sat post) (inside : ¬ post.fault)
    (crash : ¬ post.crash) (timeout : ¬ post.timeout) :
    ∃ result st, o = .done result st ∧ post.done result st := by
  cases o with
  | done result st => exact ⟨result, st, rfl, sat⟩
  | fault st => exact absurd sat inside
  | crash st => exact absurd sat crash
  | timeout st => exact absurd sat timeout

theorem Sat.andThen {o : Outcome σ α} {f : α → σ → Outcome σ β} {first : Post σ α}
    {post : Post σ β} (sat : o.Sat first)
    (next : ∀ result st, first.done result st → (f result st).Sat post)
    (faults : first.fault → post.fault) (crashes : first.crash → post.crash)
    (timeouts : first.timeout → post.timeout) : (o.andThen f).Sat post := by
  cases o with
  | done result st => exact next result st sat
  | fault st => exact faults sat
  | crash st => exact crashes sat
  | timeout st => exact timeouts sat

theorem Sat.mono {o : Outcome σ α} {first post : Post σ α} (sat : o.Sat first)
    (dones : ∀ result st, first.done result st → post.done result st)
    (faults : first.fault → post.fault) (crashes : first.crash → post.crash)
    (timeouts : first.timeout → post.timeout) : o.Sat post := by
  cases o with
  | done result st => exact dones result st sat
  | fault st => exact faults sat
  | crash st => exact crashes sat
  | timeout st => exact timeouts sat

def final : Outcome σ α → σ
  | .done _ st => st
  | .fault st => st
  | .crash st => st
  | .timeout st => st

theorem final_andThen {o : Outcome σ α} {f : α → σ → Outcome σ β} {reached : σ → Prop}
    (first : reached o.final)
    (next : ∀ result st, reached st → reached (f result st).final) :
    reached (o.andThen f).final := by
  cases o with
  | done result st => exact next result st first
  | fault st => exact first
  | crash st => exact first
  | timeout st => exact first

theorem final_andThen_sat {o : Outcome σ α} {f : α → σ → Outcome σ β} {reached : σ → Prop}
    {post : Post σ α} (sat : o.Sat post) (first : reached o.final)
    (next : ∀ result st, post.done result st → reached st → reached (f result st).final) :
    reached (o.andThen f).final := by
  cases o with
  | done result st => exact next result st sat first
  | fault st => exact first
  | crash st => exact first
  | timeout st => exact first

/-- The other call went on where this one was stopped. -/
def Extends (o o' : Outcome σ α) : Prop := (∃ st, o = .timeout st) ∨ o' = o

theorem Extends.refl (o : Outcome σ α) : o.Extends o := .inr rfl

theorem Extends.trans {o₁ o₂ o₃ : Outcome σ α} (first : o₁.Extends o₂) (second : o₂.Extends o₃) :
    o₁.Extends o₃ := by
  rcases first with stopped | rfl
  · exact .inl stopped
  · exact second

theorem Extends.andThen {o o' : Outcome σ α} {f f' : α → σ → Outcome σ β} (first : o.Extends o')
    (next : ∀ result st, (f result st).Extends (f' result st)) :
    (o.andThen f).Extends (o'.andThen f') := by
  rcases first with ⟨st, rfl⟩ | rfl
  · exact .inl ⟨st, rfl⟩
  · cases o' with
    | done result st => exact next result st
    | fault st => exact .refl _
    | crash st => exact .refl _
    | timeout st => exact .refl _

def Grows (run : Nat → Outcome σ α) : Prop := ∀ fuel more, (run fuel).Extends (run (fuel + more))

def Ends (run : Nat → Outcome σ α) : Prop := ∃ fuel, ∀ st, run fuel ≠ .timeout st

def stopped : Post σ α := ⟨fun _ _ => False, False, False, True⟩

theorem stopped_not_ends {run : Nat → Outcome σ α} (stops : ∀ fuel, (run fuel).Sat stopped) :
    ¬ Ends run := by
  rintro ⟨fuel, ended⟩
  have stop := stops fuel
  cases outcome : run fuel with
  | timeout st => exact ended st outcome
  | done result st => rw [outcome] at stop; exact stop
  | fault st => rw [outcome] at stop; exact stop
  | crash st => rw [outcome] at stop; exact stop

theorem Ends.after {run : Nat → Outcome σ α} (ends : Ends fun fuel => run (fuel + 1)) :
    Ends run := by
  obtain ⟨fuel, ended⟩ := ends
  exact ⟨fuel + 1, ended⟩

theorem Ends.const {o : Outcome σ α} (ended : ∀ st, o ≠ .timeout st) : Ends fun _ => o := ⟨0, ended⟩

theorem Grows.ended {run : Nat → Outcome σ α} (grows : Grows run) {fuel : Nat}
    (ended : ∀ st, run fuel ≠ .timeout st) (more : Nat) : run (fuel + more) = run fuel := by
  rcases grows fuel more with ⟨st, stopped⟩ | same
  · exact absurd stopped (ended st)
  · exact same

theorem Ends.finish {first : Nat → Outcome σ α} {next : α → σ → Outcome σ β} (ends : Ends first)
    (ended : ∀ result st st', next result st ≠ .timeout st') :
    Ends fun fuel => (first fuel).andThen next := by
  obtain ⟨fuel, finished⟩ := ends
  refine ⟨fuel, fun st' => ?_⟩
  dsimp only
  cases outcome : first fuel with
  | done result st => exact ended result st st'
  | fault st => simp
  | crash st => simp
  | timeout st => exact absurd outcome (finished st)

theorem Ends.andThen {first : Nat → Outcome σ α} {next : Nat → α → σ → Outcome σ β}
    (ends : Ends first) (grows : Grows first) (further : ∀ result st, Grows (next · result st))
    (later : ∀ fuel result st, first fuel = .done result st → Ends (next · result st)) :
    Ends fun fuel => (first fuel).andThen (next fuel) := by
  obtain ⟨fuel, ended⟩ := ends
  have same := grows.ended ended
  cases outcome : first fuel with
  | done result st =>
    obtain ⟨more, ended'⟩ := later fuel result st outcome
    refine ⟨fuel + more, fun st' => ?_⟩
    dsimp only
    rw [same, outcome, done_andThen, Nat.add_comm, (further result st).ended ended']
    exact ended' st'
  | fault st => exact ⟨fuel, fun st' => by simp [outcome]⟩
  | crash st => exact ⟨fuel, fun st' => by simp [outcome]⟩
  | timeout st => exact absurd outcome (ended st)

def image {τ : Type} (view : σ → τ) : Outcome σ α → Outcome τ Unit
  | .done _ st => .done () (view st)
  | .fault st => .fault (view st)
  | .crash st => .crash (view st)
  | .timeout st => .timeout (view st)

theorem image_andThen {τ : Type} {view : σ → τ} (o : Outcome σ α) {f : α → σ → Outcome σ β}
    {f' : τ → Outcome τ Unit} (next : ∀ result st, (f result st).image view = f' (view st)) :
    (o.andThen f).image view = (o.image view).andThen fun _ st => f' st := by
  cases o with
  | done result st => exact next result st
  | fault st => rfl
  | crash st => rfl
  | timeout st => rfl

theorem image_andThen_done {τ : Type} {view : σ → τ} (o : Outcome σ α) (f : α → β) :
    (o.andThen fun result st => .done (f result) st).image view = o.image view := by
  cases o <;> rfl

theorem ends_image {τ : Type} (view : σ → τ) (run : Nat → Outcome σ α) :
    (Ends fun fuel => (run fuel).image view) ↔ Ends run := by
  have stops (fuel : Nat) :
      (∀ st, (run fuel).image view ≠ .timeout st) ↔ ∀ st, run fuel ≠ .timeout st := by
    cases run fuel <;> simp [image]
  exact exists_congr stops

end Outcome

/-- What comes of one round of a loop: the loop is left, or its test is made again. -/
inductive Round (ρ α : Type) where
  | leave (result : α)
  | again (next : ρ)

namespace Outcome

variable {σ α ρ : Type}

def rounds (round : Outcome σ (Round ρ α)) (loop : ρ → σ → Outcome σ α) : Outcome σ α :=
  round.andThen fun round st =>
    match round with
    | .leave result => .done result st
    | .again next => loop next st

end Outcome

end BTServer
