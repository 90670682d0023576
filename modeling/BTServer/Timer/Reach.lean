import BTServer.Timer.Refinement

set_option autoImplicit false

namespace BTServer.Timer

open LinkedList BtTimerList

def newTimer (handle func data : Nat) (interval : UInt32) (type : BtTimerType) : Listed :=
  ⟨handle, ⟨UInt32.ofNat handle, func, data, type, interval, 0⟩⟩

theorem btTimerInit_represents : Represents btTimerInit [] := by
  refine ⟨?_, by simp, by simp, ?_, by simp [btTimerInit]⟩
  · simpa [btTimerInit] using Ring.init (fun _ => ⟨Ptr.null, Ptr.null⟩) Ptr.timerList
  · intro handle _
    simp [btTimerInit, initListHead, Ptr.Valid]

theorem Represents.fresh {s : BtTimerList} {ts : List Listed} (rep : Represents s ts) :
    s.num ∉ ts.map Listed.handle := by
  intro member
  obtain ⟨t, inside, same⟩ := List.mem_map.mp member
  exact absurd same (Nat.ne_of_lt (rep.bounded t inside))

-- The new block is filled before it is linked.
theorem Represents.filled {s : BtTimerList} {ts : List Listed} (rep : Represents s ts)
    (ptr : BtTimer) :
    Represents { s.setTimer s.num ptr with
      links := Function.update s.links (.timer s.num) ⟨.null, .null⟩
      num := s.num + 1 } ts := by
  refine ⟨rep.ring.congr ?_, ?_, ?_, ?_, rep.deletions⟩
  · intro p member
    refine Function.update_of_ne ?_ _ _
    rintro rfl
    simp only [List.mem_cons, reduceCtorEq, false_or] at member
    exact rep.fresh ((mem_pointers ts s.num).mp member)
  · intro t member
    have apart : t.handle ≠ s.num := Nat.ne_of_lt (rep.bounded t member)
    simp only [BtTimerList.setTimer, Function.update_of_ne apart]
    exact rep.fields t member
  · intro t member
    exact Nat.lt_succ_of_lt (rep.bounded t member)
  · intro handle absent
    by_cases same : handle = s.num
    · simp [same, Ptr.Valid]
    · have other : Ptr.timer handle ≠ .timer s.num := by simpa using same
      simp only [Function.update_of_ne other]
      exact rep.unlinked handle absent

theorem btTimerAdd_correct {s : BtTimerList} {ts : List Listed} (rep : Represents s ts)
    (func data : Nat) (interval : UInt32) (type : BtTimerType) :
    Represents (s.btTimerAdd func data interval type)
      (insertTimer (newTimer s.num func data interval type) ts) :=
  (rep.filled _).listAddTail (newTimer s.num func data interval type)
    (by simp [BtTimerList.setTimer, newTimer]) (Nat.lt_succ_self _) rep.fresh

theorem btTimerDel_correct {s : BtTimerList} {front back : List Listed} {t : Listed}
    (rep : Represents s (front ++ t :: back)) :
    ∃ s', s.btTimerDel t.handle = .returned s' ∧ Represents s' (front ++ back) ∧
      s'.num = s.num ∧ s'.visited = s.visited ∧ s'.invoked = s.invoked := by
  obtain ⟨deleted, deletion, unlinked, -, num, visited, invoked, -⟩ := rep.listDel
  refine ⟨{ deleted with freed := deleted.freed ++ [t.handle] }, ?_,
    unlinked.frame rfl rfl rfl rfl, num, visited, invoked⟩
  change Outcome.andThen (s.listDel t.ptr) _ = _
  rw [deletion]
  rfl

theorem btTimerUpdate_correct {s : BtTimerList} {front back : List Listed} {t : Listed}
    (rep : Represents s (front ++ t :: back)) :
    ∃ s', s.btTimerUpdate t.handle = .returned s' ∧
      Represents s' (insertTimer t.reset (front ++ back)) ∧
      s'.num = s.num ∧ s'.visited = s.visited ∧ s'.invoked = s.invoked := by
  obtain ⟨deleted, deletion, unlinked, timers, num, visited, invoked, -⟩ := rep.listDel
  have stored : deleted.timers t.handle = t.timer := by
    rw [timers]
    exact rep.fields t (by simp)
  have absent := handle_absent rep.nodup
  refine ⟨_, ?_, (unlinked.setTimer_absent absent t.reset.timer).listAddTail t.reset
    (by simp [BtTimerList.setTimer]) ?_ absent, num, visited, invoked⟩
  · change Outcome.andThen (s.listDel t.ptr) _ = _
    rw [deletion]
    simp only [Outcome.andThen, stored]
    rfl
  · change t.handle < deleted.num
    rw [num]
    exact rep.bounded t (by simp)

inductive Effect (fuel : Nat) (num : Nat) : Op → List Listed → List Listed → Prop
  | add (func data : Nat) (interval : UInt32) (type : BtTimerType) (ts : List Listed) :
      Effect fuel num (.add func data interval type) ts
        (insertTimer (newTimer num func data interval type) ts)
  | update (front back : List Listed) (t : Listed) :
      Effect fuel num (.update t.handle) (front ++ t :: back) (insertTimer t.reset (front ++ back))
  | del (front back : List Listed) (t : Listed) :
      Effect fuel num (.del t.handle) (front ++ t :: back) (front ++ back)
  | tick (ts : List Listed) (ended : ((begin ts).steps fuel).todo = []) :
      Effect fuel num .tick ts ((begin ts).steps fuel).done

/-- What a caller can know of a handle: `age` counts the ticks since it was last armed. -/
structure Record where
  type : BtTimerType
  interval : UInt32
  age : Nat
  deleted : Bool
  deriving DecidableEq

def remember (records : List Record) : Op → List Record
  | .add _ _ interval type => records ++ [⟨type, interval, 0, false⟩]
  | .update handle => records.modify handle fun r => { r with age := 0 }
  | .del handle => records.modify handle fun r => { r with deleted := true }
  | .tick => records.map fun r => { r with age := r.age + 1 }

def history (ops : List Op) : List Record := ops.foldl remember []

@[simp] theorem history_nil : history [] = [] := rfl

@[simp] theorem history_append (ops : List Op) (op : Op) :
    history (ops ++ [op]) = remember (history ops) op := by
  simp [history]

def Tracked (phase : Listed → Record → Prop) (records : List Record) (ts : List Listed) : Prop :=
  ∀ t ∈ ts, ∃ r, records[t.handle]? = some r ∧ r.type = t.type ∧ r.interval = t.interval ∧
    r.deleted = false ∧ phase t r

/-- The operations other than a tick keep any `phase` that holds of a timer just armed. -/
theorem Effect.tracked {phase : Listed → Record → Prop} {fuel : Nat} {records : List Record}
    {op : Op} {ts ts' : List Listed} (effect : Effect fuel records.length op ts ts')
    (armed : ∀ t r, t.elapse = 0 → r.age = 0 → phase t r)
    (nodup : (ts.map Listed.handle).Nodup) (tracked : Tracked phase records ts)
    (tick : op = .tick → ∀ u ∈ ts', ∃ t ∈ ts, t.handle = u.handle ∧ t.type = u.type ∧
      t.interval = u.interval ∧ ∀ r, r.interval = t.interval → phase t r →
        phase u { r with age := r.age + 1 }) :
    Tracked phase (remember records op) ts' := by
  cases effect with
  | add func data interval type =>
    intro t member
    rcases (mem_insertTimer _ _ _).mp member with rfl | member
    · exact ⟨⟨type, interval, 0, false⟩, by simp [remember, newTimer], rfl, rfl, rfl,
        armed _ _ rfl rfl⟩
    · obtain ⟨r, found, rest⟩ := tracked t member
      refine ⟨r, ?_, rest⟩
      rw [remember, List.getElem?_append_left (List.getElem?_eq_some_iff.mp found).1, found]
  | update front back t =>
    intro u member
    rcases (mem_insertTimer _ _ _).mp member with rfl | member
    · obtain ⟨r, found, type, interval, deleted, -⟩ := tracked t (by simp)
      refine ⟨{ r with age := 0 }, ?_, type, interval, deleted, armed _ _ rfl rfl⟩
      simp [remember, found]
    · obtain ⟨r, found, rest⟩ := tracked u (by
        simp only [List.mem_append, List.mem_cons] at member ⊢
        tauto)
      refine ⟨r, ?_, rest⟩
      have apart := handles_apart nodup u member
      simp [remember, found, apart.symm]
  | del front back t =>
    intro u member
    obtain ⟨r, found, rest⟩ := tracked u (by
      simp only [List.mem_append, List.mem_cons] at member ⊢
      tauto)
    refine ⟨r, ?_, rest⟩
    have apart := handles_apart nodup u member
    simp [remember, found, apart.symm]
  | tick =>
    intro u member
    obtain ⟨t, inside, handle, type, interval, next⟩ := tick rfl u member
    obtain ⟨r, found, sameType, sameInterval, deleted, held⟩ := tracked t inside
    refine ⟨{ r with age := r.age + 1 }, ?_, sameType.trans type, sameInterval.trans interval,
      deleted, next r sameInterval held⟩
    rw [← handle]
    simp [remember, found]

theorem split_of_handle {ts : List Listed} {handle : Nat}
    (member : handle ∈ ts.map Listed.handle) :
    ∃ front t back, ts = front ++ t :: back ∧ t.handle = handle := by
  obtain ⟨t, inside, same⟩ := List.mem_map.mp member
  obtain ⟨front, back, split⟩ := List.append_of_mem inside
  exact ⟨front, t, back, split, same⟩

theorem exec_effect (fuel : Nat) {s s' : BtTimerList} {ts : List Listed} (op : Op)
    (rep : Represents s ts) (ordered : Ordered ts) (result : exec fuel s op = .returned s') :
    ∃ ts', Represents s' ts' ∧ Ordered ts' ∧ Effect fuel s.num op ts ts' ∧
      ∀ records : List Record, s.num = records.length → s'.num = (remember records op).length := by
  have listed (handle : Nat) (rest : BtTimerList → Outcome)
      (result : (s.listDel (.timer handle)).andThen rest = .returned s') :
      handle ∈ ts.map Listed.handle := by
    by_contra absent
    rw [rep.listDel_fault handle absent] at result
    exact Outcome.noConfusion result
  cases op with
  | add func data interval type =>
    obtain rfl := Outcome.returned.inj result
    exact ⟨_, btTimerAdd_correct rep func data interval type,
      ordered.insert _ (young_of_zero _ rfl), .add _ _ _ _ _,
      fun records same => by simp [remember, ← same]; rfl⟩
  | update handle =>
    obtain ⟨front, t, back, rfl, rfl⟩ := split_of_handle (listed handle _ result)
    obtain ⟨after, returned, rep', num, -, -⟩ := btTimerUpdate_correct rep
    obtain rfl : after = s' := Outcome.returned.inj (returned.symm.trans result)
    exact ⟨_, rep', (ordered.sublist (by simp)).insert _ (young_of_zero _ rfl), .update _ _ _,
      fun records same => by simp [remember, num, same]⟩
  | del handle =>
    obtain ⟨front, t, back, rfl, rfl⟩ := split_of_handle (listed handle _ result)
    obtain ⟨after, returned, rep', num, -, -⟩ := btTimerDel_correct rep
    obtain rfl : after = s' := Outcome.returned.inj (returned.symm.trans result)
    exact ⟨_, rep', ordered.sublist (by simp), .del _ _ _,
      fun records same => by simp [remember, num, same]⟩
  | tick =>
    obtain ⟨after, agrees, returned⟩ := btTimerFunc_correct fuel rep ordered
    rw [exec, returned] at result
    split at result
    next ended =>
      obtain rfl := Outcome.returned.inj result
      have rep' := agrees.rep
      have ordered' := Sweep.steps_ordered fuel (begin ts)
        (by simpa [begin, Sweep.all] using ordered)
      rw [Sweep.all, ended, List.append_nil] at rep' ordered'
      exact ⟨_, rep', ordered', .tick ts ended,
        fun records same => by simp [remember, agrees.num, same]⟩
    next => exact Outcome.noConfusion result

theorem run_append (fuel : Nat) (s : BtTimerList) (front back : List Op) :
    run fuel s (front ++ back) = (run fuel s front).andThen fun s => run fuel s back := by
  induction front generalizing s with
  | nil => rfl
  | cons op front ih =>
    simp only [List.cons_append, run]
    cases exec fuel s op with
    | returned s' => exact ih s'
    | fault s' => rfl
    | running s' => rfl

theorem run_concat {fuel : Nat} {start s s' : BtTimerList} {ops : List Op} {op : Op}
    (ran : run fuel start ops = .returned s) (step : exec fuel s op = .returned s') :
    run fuel start (ops ++ [op]) = .returned s' := by
  rw [run_append, ran]
  simp only [Outcome.andThen, run, step]

theorem run_append_one (fuel : Nat) (s s' : BtTimerList) (ops : List Op) (op : Op)
    (ran : run fuel s (ops ++ [op]) = .returned s') :
    ∃ before, run fuel s ops = .returned before ∧ exec fuel before op = .returned s' := by
  rw [run_append] at ran
  cases first : run fuel s ops with
  | returned before =>
    refine ⟨before, rfl, ?_⟩
    simp only [first, Outcome.andThen, run] at ran
    cases second : exec fuel before op with
    | returned after => simpa only [second] using ran
    | fault after => simp [second] at ran
    | running after => simp [second] at ran
  | fault before => simp [first, Outcome.andThen] at ran
  | running before => simp [first, Outcome.andThen] at ran

section Invariant

variable (fuel : Nat) (holds : List Op → List Listed → Prop) (init : holds [] [])
  (step : ∀ ops s ts op ts', run fuel btTimerInit ops = .returned s → Represents s ts →
    Ordered ts → holds ops ts → Effect fuel (history ops).length op ts ts' → Ordered ts' →
    holds (ops ++ [op]) ts')
  (ops : List Op) (s : BtTimerList) (ran : run fuel btTimerInit ops = .returned s)

include init step ran

theorem run_invariant_num : ∃ ts, Represents s ts ∧ Ordered ts ∧ holds ops ts ∧
    s.num = (history ops).length := by
  induction ops using List.reverseRecOn generalizing s with
  | nil =>
    obtain rfl := Outcome.returned.inj ran
    exact ⟨[], btTimerInit_represents, ⟨by simp, by simp⟩, init, rfl⟩
  | append_singleton ops op ih =>
    obtain ⟨before, first, last⟩ := run_append_one fuel _ _ ops op ran
    obtain ⟨ts, rep, ordered, held, num⟩ := ih before first
    obtain ⟨ts', rep', ordered', effect, num'⟩ := exec_effect fuel op rep ordered last
    rw [num] at effect
    refine ⟨ts', rep', ordered',
      step ops before ts op ts' first rep ordered held effect ordered', ?_⟩
    rw [history_append]
    exact num' _ num

/-- The invariant rule for runs: `holds` relates the operations so far to the timers listed. -/
theorem run_invariant : ∃ ts, Represents s ts ∧ Ordered ts ∧ holds ops ts := by
  obtain ⟨ts, rep, ordered, held, -⟩ := run_invariant_num fuel holds init step ops s ran
  exact ⟨ts, rep, ordered, held⟩

end Invariant

/-- A run leaves the list in order, with the handles counted. -/
theorem run_represents {fuel : Nat} {ops : List Op} {s : BtTimerList}
    (ran : run fuel btTimerInit ops = .returned s) :
    ∃ ts, Represents s ts ∧ Ordered ts ∧ s.num = (history ops).length := by
  obtain ⟨ts, rep, ordered, -, num⟩ := run_invariant_num fuel (fun _ _ => True) trivial
    (fun _ _ _ _ _ _ _ _ _ _ _ => trivial) ops s ran
  exact ⟨ts, rep, ordered, num⟩

end BTServer.Timer
