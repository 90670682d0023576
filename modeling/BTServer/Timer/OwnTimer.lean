import BTServer.Timer.CallingRuns
import BTServer.Timer.Single

set_option autoImplicit false

namespace BTServer.Timer.Calling

open LinkedList BtTimerList

-- The callback of `running` has not returned yet: its timer is still on the list.
structure Ran (running : Option Nat) (l : Line) : Prop where
  bounded : ∀ call ∈ l.invoked, call.handle < l.num
  single : ∀ t ∈ l.listed, t.type = .btTimerSingle → some t.handle ≠ running →
    ∀ call ∈ l.invoked, call.handle ≠ t.handle

def Spares (callbacks : Callbacks) (l : Line) : Prop :=
  ∀ log call, log ++ [call] <+: l.invoked → Call.del call.handle ∉ callbacks (log ++ [call])

theorem call_invoked {l l' : Line} {c : Call} (returned : l.call c = .returned l') :
    l'.invoked = l.invoked := by
  cases c with
  | add func data interval type =>
    obtain rfl := LineOutcome.returned.inj returned
    rfl
  | update handle =>
    simp only [Line.call] at returned
    split at returned
    next =>
      obtain rfl := LineOutcome.returned.inj returned
      rfl
    next => cases returned
  | del handle =>
    simp only [Line.call] at returned
    split at returned
    next =>
      obtain rfl := LineOutcome.returned.inj returned
      rfl
    next => cases returned

theorem Ran.call {running : Option Nat} {l l' : Line} {c : Call} (ran : Ran running l)
    (returned : l.call c = .returned l') : Ran running l' := by
  cases c with
  | add func data interval type =>
    obtain rfl := LineOutcome.returned.inj returned
    refine ⟨fun call inside => Nat.lt_succ_of_lt (ran.bounded call inside), ?_⟩
    intro t inside single other call called
    rcases (mem_insertTimer _ _ _).mp inside with rfl | inside
    · exact Nat.ne_of_lt (ran.bounded call called)
    · exact ran.single t inside single other call called
  | update handle =>
    simp only [Line.call] at returned
    split at returned
    next t found =>
      obtain rfl := LineOutcome.returned.inj returned
      refine ⟨ran.bounded, ?_⟩
      intro u inside single other call called
      rcases (mem_insertTimer _ _ _).mp inside with rfl | inside
      · exact ran.single t (find_handle found).1 single other call called
      · exact ran.single u (List.mem_filter.mp inside).1 single other call called
    next => cases returned
  | del handle =>
    simp only [Line.call] at returned
    split at returned
    next =>
      obtain rfl := LineOutcome.returned.inj returned
      refine ⟨ran.bounded, ?_⟩
      intro u inside single other call called
      exact ran.single u (List.mem_filter.mp inside).1 single other call called
    next => cases returned

theorem Ran.calls {running : Option Nat} {l l' : Line} {cs : List Call} (ran : Ran running l)
    (returned : l.calls cs = .returned l') : Ran running l' ∧ l'.invoked = l.invoked ∧
      ∀ handle, Call.del handle ∈ cs → handle ∈ l'.freed := by
  induction cs generalizing l with
  | nil =>
    obtain rfl := LineOutcome.returned.inj returned
    exact ⟨ran, rfl, by simp⟩
  | cons c cs ih =>
    obtain ⟨l₁, first, rest⟩ := LineOutcome.andThen_eq_returned returned
    obtain ⟨ran', invoked, freed⟩ := ih (ran.call first) rest
    refine ⟨ran', invoked.trans (call_invoked first), fun handle inside => ?_⟩
    rcases List.mem_cons.mp inside with rfl | inside
    next =>
      apply (calls_kept rest).freed
      simp only [Line.call] at first
      split at first
      next =>
        obtain rfl := LineOutcome.returned.inj first
        simp
      next => cases first
    next => exact freed handle inside

theorem set_listed {l : Line} {t t' u : Listed} (inside : u ∈ (l.set t').listed)
    (member : t ∈ l.listed) (handle : t'.handle = t.handle) (type : t'.type = t.type) :
    ∃ v ∈ l.listed, v.handle = u.handle ∧ v.type = u.type := by
  obtain ⟨v, listed, rfl⟩ := List.mem_map.mp inside
  split
  next => exact ⟨t, member, handle.symm, type.symm⟩
  next => exact ⟨v, listed, rfl, rfl⟩

theorem Ran.expire {s : BtTimerList} {l : Line} {t : Listed} (ran : Ran none l) (holds : Holds s l)
    (member : t ∈ l.listed) : Ran (some t.handle) (l.expire t) := by
  constructor
  case bounded =>
    intro call called
    rcases List.mem_append.mp called with earlier | now
    · exact ran.bounded call earlier
    · rw [List.mem_singleton.mp now]
      exact holds.num ▸ holds.rep.bounded t member
  case single =>
    intro u inside single other call called
    obtain ⟨v, listed, handle, type⟩ := set_listed inside member rfl rfl
    rcases List.mem_append.mp called with earlier | now
    · rw [← handle]
      exact ran.single v listed (type.trans single) (by simp) call earlier
    · rw [List.mem_singleton.mp now]
      exact fun same => other (congrArg some same.symm)

theorem round_ran {callbacks : Callbacks} {s : BtTimerList} {l l' : Line} {handle : Nat}
    (holds : Holds s l) (ran : Ran none l) (spares : Spares callbacks l)
    (returned : l.round callbacks handle = .returned l') : Ran none l' ∧ Spares callbacks l' := by
  obtain ⟨t, found, ⟨-, rfl⟩ | ⟨due, l₁, t₁, still, called, rfl⟩⟩ := round_cases returned
  next =>
    refine ⟨⟨ran.bounded, ?_⟩, spares⟩
    intro u inside single other call called
    obtain ⟨v, listed, handle, type⟩ := set_listed inside (find_handle found).1 rfl rfl
    rw [← handle]
    exact ran.single v listed (type.trans single) (by simp) call called
  next =>
    obtain ⟨member, rfl⟩ := find_handle found
    obtain ⟨ran₁, invoked, freed⟩ := (ran.expire holds member).calls called
    refine ⟨⟨ran₁.bounded, ?_⟩, ?_⟩
    next =>
      intro u inside single _ call called
      have listed : u ∈ l₁.without t.handle := by
        dsimp only at inside
        split at inside
        next => exact inside
        next again =>
          rcases (mem_insertTimer _ _ _).mp inside with rfl | inside
          · exact absurd single again
          · exact inside
      obtain ⟨inside, other⟩ := List.mem_filter.mp listed
      exact ran₁.single u inside single (by simpa using other) call called
    next =>
      -- The timer is found again, so the callback has not freed it.
      intro log call front
      change log ++ [call] <+: l₁.invoked at front
      rw [invoked] at front
      rcases List.prefix_concat_iff.mp front with last | earlier
      next =>
        obtain ⟨rfl, same⟩ := List.append_inj' last rfl
        obtain rfl : call = t.invocation := by simpa using same
        intro deleted
        obtain ⟨s₁, holds₁⟩ : ∃ s₁, Holds s₁ l₁ :=
          (called ▸ calls_matches (expire_holds holds member) _ : Matches _ _).holds
        refine (holds₁.released t.handle (freed _ deleted)).2 ?_
        rw [← (find_handle still).2]
        exact List.mem_map_of_mem (find_handle still).1
      next => exact spares log call earlier

theorem loop_ran {callbacks : Callbacks} (fuel : Nat) {s : BtTimerList} {l l' : Line}
    {pos : Option Nat} (holds : Holds s l) (present : ∀ handle ∈ pos, handle ∈ l.handles)
    (ran : Ran none l) (spares : Spares callbacks l)
    (returned : l.loop callbacks fuel pos = .returned l') : Ran none l' ∧ Spares callbacks l' := by
  induction fuel generalizing s l pos with
  | zero =>
    cases pos with
    | none =>
      obtain rfl := LineOutcome.returned.inj returned
      exact ⟨ran, spares⟩
    | some handle => cases returned
  | succ fuel ih =>
    cases pos with
    | none =>
      obtain rfl := LineOutcome.returned.inj returned
      exact ⟨ran, spares⟩
    | some handle =>
      obtain ⟨l₁, first, rest⟩ := LineOutcome.andThen_eq_returned returned
      obtain ⟨s₁, holds₁⟩ := (first ▸ round_matches holds callbacks (present handle rfl) :
        Matches _ (.returned l₁)).holds
      obtain ⟨ran₁, spares₁⟩ := round_ran holds ran spares first
      split at rest
      next still =>
        exact ih holds₁ (by simpa [Option.all_eq_true] using still) ran₁ spares₁ rest
      next => cases rest

theorem exec_ran {callbacks : Callbacks} {fuel : Nat} {s : BtTimerList} {l l' : Line} {op : Op}
    (holds : Holds s l) (ran : Ran none l) (spares : Spares callbacks l)
    (returned : l.exec callbacks fuel op = .returned l') : Ran none l' ∧ Spares callbacks l' := by
  have called (c : Call) (returned : l.call c = .returned l') :
      Ran none l' ∧ Spares callbacks l' :=
    ⟨ran.call returned, by rwa [Spares, call_invoked returned]⟩
  cases op with
  | add func data interval type => exact called (.add func data interval type) returned
  | update handle => exact called (.update handle) returned
  | del handle => exact called (.del handle) returned
  | tick => exact loop_ran fuel holds first_listed ran spares returned

theorem run_ran {callbacks : Callbacks} {fuel : Nat} {s : BtTimerList} {l l' : Line}
    (ops : List Op) (holds : Holds s l) (ran : Ran none l) (spares : Spares callbacks l)
    (returned : l.run callbacks fuel ops = .returned l') : Ran none l' ∧ Spares callbacks l' := by
  induction ops generalizing s l with
  | nil =>
    obtain rfl := LineOutcome.returned.inj returned
    exact ⟨ran, spares⟩
  | cons op ops ih =>
    obtain ⟨l₁, first, rest⟩ := LineOutcome.andThen_eq_returned returned
    obtain ⟨s₁, holds₁⟩ := (first ▸ exec_matches callbacks fuel holds op :
      Matches _ (.returned l₁)).holds
    obtain ⟨ran₁, spares₁⟩ := exec_ran holds ran spares first
    exact ih holds₁ ran₁ spares₁ rest

/-- Whatever the callbacks do, a single-shot timer that has run is off the list for good. -/
theorem callbacks_and_their_timers (callbacks : Callbacks) (fuel : Nat) (ops : List Op)
    (s : BtTimerList) (ran : run callbacks fuel btTimerInit ops = .returned s) :
    (∀ handle, (s.timers handle).type = .btTimerSingle → s.calls handle ≠ 0 →
      ¬ s.Linked handle ∧ (∃ s', s.btTimerUpdate handle = .fault s') ∧
        ∃ s', s.btTimerDel handle = .fault s') ∧
    ∀ log call, log ++ [call] <+: s.invoked →
      Call.del call.handle ∉ callbacks (log ++ [call]) := by
  have whole := run_matches callbacks fuel initial_holds ops
  rw [ran] at whole
  generalize line : Line.initial.run callbacks fuel ops = outcome at whole
  cases whole with
  | @returned _ l holds =>
    obtain ⟨once, spares⟩ := run_ran ops initial_holds
      ⟨by simp [Line.initial], by simp [Line.initial]⟩ (by simp [Spares, Line.initial]) line
    refine ⟨fun handle single invoked => ?_, holds.invoked ▸ spares⟩
    have absent : handle ∉ l.handles := by
      intro listed
      obtain ⟨t, member, rfl⟩ := List.mem_map.mp listed
      apply invoked
      rw [BtTimerList.calls, List.countP_eq_zero, holds.invoked]
      intro call called
      simp only [decide_eq_true_eq]
      rw [holds.rep.fields t member] at single
      exact once.single t member single (by simp) call called
    exact ⟨fun linked => absent ((holds.rep.linked_iff handle).mp linked),
      unlisted_fault holds absent _, unlisted_fault holds absent _⟩

-- A callback that wants its own timer to run again.
def rearming : Callbacks := fun _ => [.update 0]

def rearmed : BtTimerList :=
  (run rearming 2 btTimerInit [.add 0 0 1 .btTimerSingle, .tick]).state

theorem rearming_does_not_last :
    run rearming 2 btTimerInit [.add 0 0 1 .btTimerSingle, .tick] = .returned rearmed ∧
      rearmed.calls 0 = 1 ∧ ¬ rearmed.Linked 0 := by
  have ran : run rearming 2 btTimerInit [.add 0 0 1 .btTimerSingle, .tick] = .returned rearmed := rfl
  have called : rearmed.calls 0 = 1 := rfl
  have off := (callbacks_and_their_timers rearming 2 _ rearmed ran).1 0 rfl (by rw [called]; decide)
  exact ⟨ran, called, off.1⟩

end BTServer.Timer.Calling
