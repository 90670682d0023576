import BTServer.Timer.CallingRuns

set_option autoImplicit false

namespace BTServer.Timer.Calling

open LinkedList BtTimerList

variable {callbacks : Callbacks} {interval : UInt32}

-- A timer whose callback starts the next one instead of repeating.
structure Restarting (interval : UInt32) (t : Listed) : Prop where
  same : t.interval = interval
  single : t.type = .btTimerSingle
  due : t.Due

/-- From the log's length on, each callback adds one timer of the interval. -/
def Restarts (callbacks : Callbacks) (interval : UInt32) (length : Nat) : Prop :=
  ∀ log, length < log.length → ∃ func data, callbacks log = [.add func data interval .btTimerSingle]

theorem newTimer_restarting (small : interval ≤ 1) (handle func data : Nat) :
    Restarting interval (newTimer handle func data interval .btTimerSingle) :=
  ⟨rfl, rfl, by simpa [Listed.Due, newTimer, Listed.elapse, Listed.interval] using small⟩

theorem insertTimer_between {t : Listed} {front back : List Listed}
    (passed : ∀ u ∈ front, u.interval ≤ t.interval) (later : ∀ u ∈ back, t.interval < u.interval) :
    insertTimer t (front ++ back) = front ++ t :: back := by
  have stop : back.takeWhile (notAfter t) = [] := by
    cases back with
    | nil => rfl
    | cons u back =>
      refine List.takeWhile_cons_of_neg ?_
      simpa [notAfter] using later u (by simp)
  rw [insertTimer_behind t front back passed, insertTimer, stop,
    dropWhile_of_takeWhile_nil t back stop, List.nil_append]

theorem restart_round {s : BtTimerList} {l : Line} {t u : Listed} {ts others : List Listed}
    (holds : Holds s l) (small : interval ≤ 1) (split : l.listed = t :: u :: ts ++ others)
    (each : ∀ v ∈ t :: u :: ts, Restarting interval v) (later : ∀ v ∈ others, interval < v.interval)
    (restarts : Restarts callbacks interval l.invoked.length) :
    l.next t.handle = some u.handle ∧ ∃ l' new, l.round callbacks t.handle = .returned l' ∧
      l'.listed = u :: (ts ++ [new]) ++ others ∧ Restarting interval new ∧
      l'.invoked.length = l.invoked.length + 1 := by
  have first : l.listed = [] ++ t :: (u :: ts ++ others) := split
  have member : t ∈ l.listed := by rw [first]; simp
  obtain ⟨func, data, calls⟩ := restarts (l.invoked ++ [t.invocation]) (by simp)
  have new := newTimer_restarting small l.num func data
  -- The list when the callback has returned, with its own timer still in front.
  obtain ⟨l₁, called, listed, invoked⟩ : ∃ l₁,
      (l.expire t).calls (callbacks (l.invoked ++ [t.invocation])) = .returned l₁ ∧
        l₁.listed = [] ++ t.reset :: (u :: ts ++
          newTimer l.num func data interval .btTimerSingle :: others) ∧
        l₁.invoked = l.invoked ++ [t.invocation] := by
    refine ⟨_, by rw [calls]; rfl, ?_, rfl⟩
    have expired : (l.expire t).listed = (t.reset :: u :: ts) ++ others :=
      Line.set_split holds.nodup first rfl
    rw [expired]
    refine insertTimer_between (fun v inside => ?_) later
    rcases List.mem_cons.mp inside with rfl | inside
    · exact UInt32.le_of_eq (each t (by simp)).same
    · exact UInt32.le_of_eq (each v (List.mem_cons_of_mem _ inside)).same
  obtain ⟨s₁, holds₁⟩ := (called ▸ calls_matches (expire_holds holds member) _ :
    Matches _ (.returned l₁)).holds
  have found := Line.find_split holds₁.nodup listed
  have others₁ := Line.without_split holds₁.nodup listed
  rw [Listed.reset_handle] at found others₁
  refine ⟨Line.next_split holds.nodup first, { l₁ with listed := l₁.without t.handle }, _, ?_, ?_,
    new, by rw [invoked]; simp⟩
  · rw [Line.round, Line.find_split holds.nodup first]
    simp only [(each t (by simp)).due, if_true, called, LineOutcome.andThen, found]
    rw [Listed.reset_type, if_pos (each t (by simp)).single]
  · rw [others₁]
    simp

theorem restarting_loop (small : interval ≤ 1) (steps : Nat) {s : BtTimerList} {l : Line}
    {t u : Listed} {ts others : List Listed} (holds : Holds s l)
    (split : l.listed = t :: u :: ts ++ others) (each : ∀ v ∈ t :: u :: ts, Restarting interval v)
    (later : ∀ v ∈ others, interval < v.interval)
    (restarts : Restarts callbacks interval l.invoked.length) :
    ∃ l', l.loop callbacks steps (some t.handle) = .running l' ∧
      l'.invoked.length = l.invoked.length + steps := by
  induction steps generalizing s l t u ts with
  | zero => exact ⟨l, rfl, rfl⟩
  | succ steps ih =>
    obtain ⟨next, l₁, new, round, listed, restarting, invoked⟩ :=
      restart_round holds small split each later restarts
    have present : t.handle ∈ l.handles := by simp [Line.handles, split]
    obtain ⟨s₁, holds₁⟩ := (round ▸ round_matches holds callbacks present :
      Matches _ (.returned l₁)).holds
    have follows : u.handle ∈ l₁.handles := by simp [Line.handles, listed]
    simp only [Line.loop, round, LineOutcome.andThen, next, Option.all_some, follows, decide_true,
      if_true]
    -- The timer that follows is now the first of as many.
    obtain ⟨v, vs, more⟩ : ∃ v vs, ts ++ [new] = v :: vs := List.exists_cons_of_ne_nil (by simp)
    have again : ∀ w ∈ u :: v :: vs, Restarting interval w := by
      rw [← more]
      intro w inside
      simp only [List.mem_cons, List.mem_append, List.not_mem_nil, or_false] at inside
      rcases inside with rfl | inside | rfl
      · exact each w (by simp)
      · exact each w (by simp [inside])
      · exact restarting
    obtain ⟨l', running, count⟩ := ih holds₁ (more ▸ listed) again
      fun log long => restarts log (by omega)
    exact ⟨l', running, by omega⟩

theorem restarting_callbacks_hang {fuel : Nat} {ops : List Op} {s : BtTimerList}
    {ts others : List Listed} (ran : run callbacks fuel btTimerInit ops = .returned s)
    (rep : Represents s (ts ++ others)) (small : interval ≤ 1) (two : 2 ≤ ts.length)
    (each : ∀ t ∈ ts, Restarting interval t) (later : ∀ t ∈ others, interval < t.interval)
    (restarts : Restarts callbacks interval s.invoked.length) :
    ∀ steps, ∃ s', btTimerFunc callbacks steps s = .running s' ∧
      s'.invoked.length = s.invoked.length + steps := by
  intro steps
  have whole := run_matches callbacks fuel initial_holds ops
  rw [ran] at whole
  generalize Line.initial.run callbacks fuel ops = line at whole
  cases whole with
  | @returned _ l before =>
    have holds : Holds s ⟨ts ++ others, s.num, s.invoked, s.freed⟩ := by
      refine ⟨rep, rfl, rfl, rfl, fun handle freed => ?_⟩
      obtain ⟨bound, absent⟩ := before.released handle (before.freed ▸ freed)
      refine ⟨before.num ▸ bound, fun listed => absent ?_⟩
      exact (before.rep.linked_iff handle).mp ((rep.linked_iff handle).mpr listed)
    obtain ⟨t, u, rest, rfl⟩ : ∃ t u rest, ts = t :: u :: rest := by
      match ts, two with
      | t :: u :: rest, _ => exact ⟨t, u, rest, rfl⟩
    obtain ⟨l', running, count⟩ := restarting_loop small steps holds rfl each later restarts
    have tick := tick_matches callbacks steps holds
    rw [Line.tick, show (t :: u :: rest ++ others).head?.map Listed.handle = some t.handle from rfl,
      running] at tick
    generalize btTimerFunc callbacks steps s = outcome at tick
    cases tick with
    | @running s' _ holds' => exact ⟨s', rfl, by rw [holds'.invoked, count]⟩

-- Two jobs that start themselves anew every second.
def jobs : Callbacks := fun _ => [.add 0 0 1 .btTimerSingle]

def twoJobs : BtTimerList :=
  (run jobs 0 btTimerInit [.add 0 0 1 .btTimerSingle, .add 0 0 1 .btTimerSingle]).state

theorem two_jobs_hang :
    run jobs 0 btTimerInit [.add 0 0 1 .btTimerSingle, .add 0 0 1 .btTimerSingle] =
        .returned twoJobs ∧
      ∀ steps, ∃ s', btTimerFunc jobs steps twoJobs = .running s' ∧
        s'.invoked.length = twoJobs.invoked.length + steps := by
  let job (handle : Nat) : Listed := newTimer handle 0 0 1 .btTimerSingle
  have ran : run jobs 0 btTimerInit [.add 0 0 1 .btTimerSingle, .add 0 0 1 .btTimerSingle] =
      .returned twoJobs := rfl
  have rep : Represents twoJobs ([job 0, job 1] ++ []) :=
    btTimerAdd_correct (btTimerAdd_correct btTimerInit_represents 0 0 1 .btTimerSingle) 0 0 1
      .btTimerSingle
  have each : ∀ t ∈ [job 0, job 1], Restarting 1 t := by
    have new (handle : Nat) := @newTimer_restarting 1 (by decide) handle 0 0
    simp only [List.forall_mem_cons]
    exact ⟨new 0, new 1, by simp⟩
  exact ⟨ran, restarting_callbacks_hang ran rep (by decide) (by decide) each (by simp)
    fun log _ => ⟨0, 0, rfl⟩⟩

end BTServer.Timer.Calling
