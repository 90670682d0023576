import BTServer.Shared.Outcome

set_option autoImplicit false

namespace BTServer.Outcome

variable {σ τ α β γ δ : Type}

-- Two calls end in the same way, with one state seen through a view of the other, and with related
-- results if they return.
inductive Simulates (view : τ → σ) (rel : α → β → τ → Prop) : Outcome σ α → Outcome τ β → Prop
  | done {x : α} {y : β} {s : σ} {t : τ} (state : view t = s) (related : rel x y t) :
    Simulates view rel (.done x s) (.done y t)
  | fault {s : σ} {t : τ} (state : view t = s) : Simulates view rel (.fault s) (.fault t)
  | crash {s : σ} {t : τ} (state : view t = s) : Simulates view rel (.crash s) (.crash t)
  | timeout {s : σ} {t : τ} (state : view t = s) : Simulates view rel (.timeout s) (.timeout t)

variable {view : τ → σ} {rel : α → β → τ → Prop} {rel' : γ → δ → τ → Prop}

theorem Simulates.andThen {o : Outcome σ α} {o' : Outcome τ β} {f : α → σ → Outcome σ γ}
    {f' : β → τ → Outcome τ δ} (first : Simulates view rel o o')
    (next : ∀ x y t, rel x y t → Simulates view rel' (f x (view t)) (f' y t)) :
    Simulates view rel' (o.andThen f) (o'.andThen f') := by
  cases first with
  | done state related => exact state ▸ next _ _ _ related
  | fault state => exact .fault state
  | crash state => exact .crash state
  | timeout state => exact .timeout state

theorem Simulates.mono {o : Outcome σ α} {o' : Outcome τ β} {rel₁ : α → β → τ → Prop}
    (first : Simulates view rel o o') (more : ∀ x y t, rel x y t → rel₁ x y t) :
    Simulates view rel₁ o o' := by
  cases first with
  | done state related => exact .done state (more _ _ _ related)
  | fault state => exact .fault state
  | crash state => exact .crash state
  | timeout state => exact .timeout state

theorem Simulates.returns {x : α} {s : σ} {o' : Outcome τ β}
    (first : Simulates view rel (.done x s) o') : ∃ y t, o' = .done y t ∧ rel x y t := by
  cases first with
  | done state related => exact ⟨_, _, rfl, related⟩

theorem Simulates.returned {o : Outcome σ α} {y : β} {t : τ}
    (first : Simulates view rel o (.done y t)) : ∃ x, o = .done x (view t) ∧ rel x y t := by
  cases first with
  | done state related => exact ⟨_, state ▸ rfl, related⟩

theorem Simulates.sat {o : Outcome σ α} {o' : Outcome τ β} {post : Post σ α}
    (first : Simulates view rel o o') (sat : o.Sat post) :
    Simulates view (fun x y t => rel x y t ∧ post.done x (view t)) o o' := by
  cases first with
  | done state related => exact .done state ⟨related, state ▸ sat⟩
  | fault state => exact .fault state
  | crash state => exact .crash state
  | timeout state => exact .timeout state

theorem andThen_eq_crash {o : Outcome σ α} {f : α → σ → Outcome σ β} {st : σ}
    (crashed : o.andThen f = .crash st) :
    o = .crash st ∨ ∃ x st', o = .done x st' ∧ f x st' = .crash st := by
  cases o with
  | done x st' => exact .inr ⟨x, st', rfl, crashed⟩
  | crash st' => exact .inl (by simpa using crashed)
  | fault st' => cases crashed
  | timeout st' => cases crashed

-- Two calls end in the same way, with the same result, in states that belong together.
inductive Matches (R : σ → τ → Prop) : Outcome σ α → Outcome τ α → Prop
  | done {x : α} {s : σ} {t : τ} (related : R s t) : Matches R (.done x s) (.done x t)
  | fault {s : σ} {t : τ} (related : R s t) : Matches R (.fault s) (.fault t)
  | crash {s : σ} {t : τ} (related : R s t) : Matches R (.crash s) (.crash t)
  | timeout {s : σ} {t : τ} (related : R s t) : Matches R (.timeout s) (.timeout t)

theorem Matches.andThen {R : σ → τ → Prop} {o : Outcome σ α} {o' : Outcome τ α}
    {f : α → σ → Outcome σ γ} {f' : α → τ → Outcome τ γ} (first : Matches R o o')
    (next : ∀ x s t, o' = .done x t → R s t → Matches R (f x s) (f' x t)) :
    Matches R (o.andThen f) (o'.andThen f') := by
  cases first with
  | done related => exact next _ _ _ rfl related
  | fault related => exact .fault related
  | crash related => exact .crash related
  | timeout related => exact .timeout related

theorem Matches.returns {R : σ → τ → Prop} {x : α} {s : σ} {o' : Outcome τ α}
    (first : Matches R (.done x s) o') : ∃ t, o' = .done x t ∧ R s t := by
  cases first with
  | done related => exact ⟨_, rfl, related⟩

theorem Matches.crash_iff {R : σ → τ → Prop} {o : Outcome σ α} {o' : Outcome τ α}
    (first : Matches R o o') : (∃ s, o = .crash s) ↔ ∃ t, o' = .crash t := by
  cases first <;> simp

theorem Matches.returned {R : σ → τ → Prop} {o : Outcome σ α} {x : α} {t : τ}
    (first : Matches R o (.done x t)) : ∃ s, o = .done x s ∧ R s t := by
  cases first with
  | done related => exact ⟨_, rfl, related⟩

end BTServer.Outcome
