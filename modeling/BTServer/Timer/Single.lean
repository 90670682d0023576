import BTServer.Timer.Handles

set_option autoImplicit false

namespace BTServer.Timer

open BtTimerList

def BtTimerList.calls (s : BtTimerList) (handle : Nat) : Nat :=
  s.invoked.countP fun call => call.handle = handle

def BtTimerList.callsOf (s : BtTimerList) (handle : Nat) : List Invocation :=
  s.invoked.filter fun call => call.handle = handle

-- The arguments of `bt_timer_add`.
structure Added where
  func : Nat
  data : Nat
  interval : UInt32
  type : BtTimerType
  deriving DecidableEq

def Op.added? : Op → Option Added
  | .add func data interval type => some ⟨func, data, interval, type⟩
  | _ => none

def added (ops : List Op) : List Added := ops.filterMap Op.added?

def Added.timer (a : Added) (handle : Nat) : Listed :=
  newTimer handle a.func a.data a.interval a.type

def Added.call (a : Added) (handle : Nat) : Invocation := (a.timer handle).invocation

def Op.isTick : Op → Bool
  | .tick => true
  | _ => false

def ticks (ops : List Op) : Nat := ops.countP Op.isTick

-- The operation starts the timer's interval, when `num` timers have been added before.
def Op.Arms (num handle : Nat) : Op → Prop
  | .add _ _ _ _ => handle = num
  | .update target => handle = target
  | _ => False

def Op.Leaves (handle : Nat) : Op → Prop
  | .update target => target ≠ handle
  | .del target => target ≠ handle
  | _ => True

theorem ticks_append (ops : List Op) (op : Op) :
    ticks (ops ++ [op]) = ticks ops + if op.isTick then 1 else 0 := by
  simp [ticks, List.countP_append, List.countP_singleton]

theorem remember_left {records : List Record} {handle : Nat} {r : Record}
    (found : records[handle]? = some r) (op : Op) (leaves : op.Leaves handle) :
    (remember records op)[handle]? =
      some { r with age := r.age + if op.isTick then 1 else 0 } := by
  cases op with
  | add func data interval type =>
    rw [remember, List.getElem?_append_left (List.getElem?_eq_some_iff.mp found).1, found]
    rfl
  | update target =>
    rw [remember, List.getElem?_modify_ne _ _ leaves, found]
    rfl
  | del target =>
    rw [remember, List.getElem?_modify_ne _ _ leaves, found]
    rfl
  | tick =>
    rw [remember, List.getElem?_map, found]
    rfl

theorem history_left {front : List Op} {handle : Nat} {r : Record}
    (found : (history front)[handle]? = some r) (back : List Op)
    (left : ∀ op ∈ back, op.Leaves handle) :
    (history (front ++ back))[handle]? = some { r with age := r.age + ticks back } := by
  induction back using List.reverseRecOn with
  | nil => rw [List.append_nil, found]; rfl
  | append_singleton back op ih =>
    have earlier := ih fun op member => left op (List.mem_append_left _ member)
    rw [← List.append_assoc, history_append, remember_left earlier op (left op (by simp)),
      ticks_append]
    simp only [Nat.add_assoc]

theorem exec_invoked (fuel : Nat) (s : BtTimerList) (op : Op) (other : op.isTick = false) :
    (exec fuel s op).state.invoked = s.invoked := by
  cases op with
  | add func data interval type => rfl
  | update handle =>
    simp only [exec, btTimerUpdate, BtTimerList.listDel]
    split <;> rfl
  | del handle =>
    simp only [exec, btTimerDel, BtTimerList.listDel]
    split <;> rfl
  | tick => exact Bool.noConfusion other

theorem tick_calls (fuel : Nat) {s s' : BtTimerList} {ts : List Listed} (rep : Represents s ts)
    (ordered : Ordered ts) (returned : s.btTimerFunc fuel = .returned s') (handle : Nat) :
    ((begin ts).steps fuel).todo = [] ∧
      s'.calls handle = s.calls handle + (((begin ts).steps fuel).trace handle).calls := by
  obtain ⟨after, agrees, result⟩ := btTimerFunc_correct fuel rep ordered
  rw [result] at returned
  split at returned
  next ended =>
    obtain rfl := Outcome.returned.inj returned
    refine ⟨ended, ?_⟩
    rw [calls, agrees.invoked, List.countP_append]
    rfl
  next => exact Outcome.noConfusion returned

theorem exec_arms (fuel : Nat) {s s' : BtTimerList} {ts : List Listed} {op : Op} {handle : Nat}
    (rep : Represents s ts) (ordered : Ordered ts) (result : exec fuel s op = .returned s')
    (arms : op.Arms s.num handle) : s'.Linked handle ∧ (s'.timers handle).elapse = 0 := by
  obtain ⟨ts', rep', -, effect, -⟩ := exec_effect fuel op rep ordered result
  have started (t : Listed) (member : t ∈ ts') (same : t.handle = handle) (zero : t.elapse = 0) :
      s'.Linked handle ∧ (s'.timers handle).elapse = 0 := by
    subst same
    rw [rep'.linked_iff, rep'.fields t member]
    exact ⟨List.mem_map_of_mem member, zero⟩
  cases effect with
  | add func data interval type =>
    exact started _ ((mem_insertTimer _ _ _).mpr (.inl rfl)) arms.symm rfl
  | update front back t =>
    exact started _ ((mem_insertTimer _ _ _).mpr (.inl rfl)) arms.symm rfl
  | del front back t => exact False.elim arms
  | tick ts ended => exact False.elim arms

theorem armed_record (fuel : Nat) {ops : List Op} {s : BtTimerList} {handle : Nat}
    (ran : run fuel btTimerInit ops = .returned s) (linked : s.Linked handle)
    (zero : (s.timers handle).elapse = 0) (single : (s.timers handle).type = .btTimerSingle) :
    (history ops)[handle]? = some ⟨.btTimerSingle, (s.timers handle).interval, 0, false⟩ := by
  obtain ⟨ts, rep, -, tracked, -⟩ := run_tracks fuel ops s ran
  obtain ⟨t, member, rfl⟩ := List.mem_map.mp ((rep.linked_iff handle).mp linked)
  obtain ⟨⟨type, interval, age, deleted⟩, found, sameType, sameInterval, kept, phase⟩ :=
    tracked t member
  rw [rep.fields t member] at zero single ⊢
  have counted : t.elapse.toNat = age := phase single
  have young : age = 0 := by
    rw [← counted, show t.elapse = 0 from zero, UInt32.toNat_zero]
  have kind : type = .btTimerSingle := sameType.trans single
  simp only at sameInterval kept
  rw [found, young, kind, sameInterval, kept]
  rfl

theorem added_append (front back : List Op) : added (front ++ back) = added front ++ added back :=
  List.filterMap_append

theorem added_length (ops : List Op) : (added ops).length = (history ops).length := by
  induction ops using List.reverseRecOn with
  | nil => rfl
  | append_singleton ops op ih =>
    rw [added_append, List.length_append, ih, history_append]
    cases op <;> simp [added, Op.added?, remember]

def AsAdded (given : List Added) (ts : List Listed) : Prop :=
  ∀ t ∈ ts, ∃ a, given[t.handle]? = some a ∧ t.reset = a.timer t.handle

theorem AsAdded.append {given : List Added} {ts : List Listed} (same : AsAdded given ts)
    (more : List Added) : AsAdded (given ++ more) ts := by
  intro t member
  obtain ⟨a, found, fields⟩ := same t member
  exact ⟨a, List.getElem?_append_left (List.getElem?_eq_some_iff.mp found).1 ▸ found, fields⟩

theorem Effect.asAdded {fuel : Nat} {ops : List Op} {op : Op} {ts ts' : List Listed}
    (effect : Effect fuel (history ops).length op ts ts') (same : AsAdded (added ops) ts) :
    AsAdded (added (ops ++ [op])) ts' := by
  rw [added_append]
  have earlier := same.append (added [op])
  cases effect with
  | add func data interval type =>
    intro t member
    rcases (mem_insertTimer _ _ _).mp member with rfl | member
    · refine ⟨⟨func, data, interval, type⟩, ?_, rfl⟩
      rw [← added_length]
      exact List.getElem?_concat_length
    · exact earlier t member
  | update front back t =>
    intro u member
    rcases (mem_insertTimer _ _ _).mp member with rfl | member
    · exact earlier t (by simp)
    · apply earlier u
      simp only [List.mem_append, List.mem_cons] at member ⊢
      tauto
  | del front back t =>
    intro u member
    apply earlier u
    simp only [List.mem_append, List.mem_cons] at member ⊢
    tauto
  | tick =>
    intro u member
    obtain ⟨t, inside, unchanged⟩ := (begin ts).steps_reset fuel u (List.mem_append_left _ member)
    obtain ⟨a, found, fields⟩ := earlier t inside
    rw [← (Listed.eq_of_reset unchanged).1]
    exact ⟨a, found, unchanged ▸ fields⟩

theorem run_asAdded (fuel : Nat) {ops : List Op} {s : BtTimerList} {handle : Nat} {a : Added}
    (ran : run fuel btTimerInit ops = .returned s) (given : (added ops)[handle]? = some a)
    (linked : s.Linked handle) :
    Listed.reset ⟨handle, s.timers handle⟩ = a.timer handle := by
  obtain ⟨ts, rep, -, same⟩ := run_invariant fuel (fun ops ts => AsAdded (added ops) ts)
    (fun t member => absurd member List.not_mem_nil)
    (fun ops s ts op ts' _ _ _ same effect _ => effect.asAdded same) ops s ran
  obtain ⟨t, member, rfl⟩ := List.mem_map.mp ((rep.linked_iff handle).mp linked)
  obtain ⟨b, found, fields⟩ := same t member
  obtain rfl := Option.some.inj (found.symm.trans given)
  rw [rep.fields t member]
  exact fields

theorem Sweep.step_calls (w : Sweep) (call : Invocation) (called : call ∈ w.step.invoked) :
    call ∈ w.invoked ∨ ∃ t ∈ w.all, t.invocation = call := by
  cases next : w.todo with
  | nil =>
    rw [w.step_of_nil next] at called
    exact .inl called
  | cons t rest =>
    have here : t ∈ w.all := by simp [all, next]
    rcases w.step_cases t rest next with
      ⟨-, result⟩ | ⟨-, -, result⟩ | ⟨-, -, -, result⟩ | ⟨-, -, -, result⟩
    · rw [result] at called
      exact .inl called
    all_goals
      rw [result, List.mem_append, List.mem_singleton] at called
      exact called.imp_right fun same => ⟨t, here, same.symm⟩

theorem Sweep.steps_calls (n : Nat) (w : Sweep) (call : Invocation)
    (called : call ∈ (w.steps n).invoked) :
    call ∈ w.invoked ∨ ∃ t ∈ w.all, t.invocation = call := by
  induction n generalizing w with
  | zero => exact .inl called
  | succ n ih =>
    rcases ih w.step called with earlier | ⟨u, inside, rfl⟩
    · exact w.step_calls call earlier
    · obtain ⟨t, first, same⟩ := w.step_source u inside
      exact .inr ⟨t, first, (Listed.eq_of_reset same).2.2.2⟩

theorem tick_callsOf (fuel : Nat) {ops : List Op} {s s' : BtTimerList} {ts : List Listed}
    {handle : Nat} {a : Added} (ran : run fuel btTimerInit ops = .returned s)
    (given : (added ops)[handle]? = some a) (rep : Represents s ts) (ordered : Ordered ts)
    (returned : s.btTimerFunc fuel = .returned s') :
    s'.callsOf handle = s.callsOf handle ++
      List.replicate (((begin ts).steps fuel).trace handle).calls (a.call handle) := by
  obtain ⟨after, agrees, result⟩ := btTimerFunc_correct fuel rep ordered
  rw [result] at returned
  split at returned
  next ended =>
    obtain rfl := Outcome.returned.inj returned
    rw [callsOf, agrees.invoked, List.filter_append]
    congr 1
    rw [List.eq_replicate_iff]
    refine ⟨List.countP_eq_length_filter.symm, fun call member => ?_⟩
    obtain ⟨called, same⟩ := List.mem_filter.mp member
    rcases (begin ts).steps_calls fuel call called with none | ⟨t, inside, rfl⟩
    · exact absurd none List.not_mem_nil
    · obtain rfl : t.handle = handle := of_decide_eq_true same
      have listed : t.handle ∈ ts.map Listed.handle := List.mem_map_of_mem inside
      have fields := run_asAdded fuel ran given ((rep.linked_iff t.handle).mpr listed)
      rw [rep.fields t inside] at fields
      rw [Added.call, ← fields, Listed.reset_invocation]
  next => exact Outcome.noConfusion returned

section Recorded

variable {records : List Record} {ts : List Listed} {handle : Nat} {interval : UInt32} {age : Nat}

theorem single_listed_iff (ordered : Ordered ts) (tracked : Tracked OnTime records ts)
    (covers : Covers records ts)
    (found : records[handle]? = some ⟨.btTimerSingle, interval, age, false⟩) :
    handle ∈ ts.map Listed.handle ↔ age < max 1 interval.toNat := by
  rw [listed_iff_live ordered tracked covers]
  constructor
  · rintro ⟨r, found', -, live⟩
    obtain rfl := Option.some.inj (found.symm.trans found')
    exact live.resolve_left (by simp)
  · intro early
    exact ⟨_, found, rfl, .inr early⟩

theorem single_tick (ordered : Ordered ts) (nodup : (ts.map Listed.handle).Nodup)
    (tracked : Tracked OnTime records ts) (covers : Covers records ts)
    (found : records[handle]? = some ⟨.btTimerSingle, interval, age, false⟩)
    (n : Nat) (ended : ((begin ts).steps n).todo = []) :
    (((begin ts).steps n).trace handle).calls = if age + 1 = max 1 interval.toNat then 1 else 0 := by
  have listed := single_listed_iff ordered tracked covers found
  by_cases early : age < max 1 interval.toNat
  · obtain ⟨t, member, rfl⟩ := List.mem_map.mp (listed.mpr early)
    obtain ⟨r, found', type, same, -, phase⟩ := tracked t member
    obtain rfl := Option.some.inj (found.symm.trans found')
    have due : t.Due ↔ age + 1 = max 1 interval.toNat := by
      rw [due_iff t (ordered.young t member), phase type.symm, ← same]
      simp only
      omega
    rw [single_trace ordered nodup n ended t member type.symm]
    simp only [Trace.pass, due, Nat.zero_add]
  · rw [Sweep.steps_trace_absent n (begin ts) handle (fun member => early (listed.mp member)),
      begin_trace, if_neg (by omega)]

theorem single_exec_calls (fuel : Nat) {ops : List Op} {op : Op} {s s' : BtTimerList} {a : Added}
    (ran : run fuel btTimerInit ops = .returned s) (step : exec fuel s op = .returned s')
    (given : (added ops)[handle]? = some a)
    (found : (history ops)[handle]? = some ⟨.btTimerSingle, interval, age, false⟩) :
    s'.callsOf handle = s.callsOf handle ++
      if op.isTick = true ∧ age + 1 = max 1 interval.toNat then [a.call handle] else [] := by
  have quiet (other : op.isTick = false) : s'.callsOf handle = s.callsOf handle := by
    have same := exec_invoked fuel s op other
    rw [step] at same
    rw [callsOf, show s'.invoked = s.invoked from same, callsOf]
  cases op with
  | tick =>
    obtain ⟨ts, rep, ordered, tracked, covers⟩ := run_tracks fuel ops s ran
    obtain ⟨ended, -⟩ := tick_calls fuel rep ordered step handle
    rw [tick_callsOf fuel ran given rep ordered step,
      single_tick ordered rep.nodup tracked covers found fuel ended]
    by_cases now : age + 1 = max 1 interval.toNat
    · rw [if_pos now, if_pos ⟨rfl, now⟩]
      rfl
    · rw [if_neg now, if_neg (fun both => now both.2)]
      rfl
  | _ => rw [quiet rfl, if_neg (fun both => Bool.noConfusion both.1), List.append_nil]

end Recorded

/-- A single-shot timer runs the callback it was added with on the last tick of its interval, and
on no other, and leaves the list there. -/
theorem single_timer_fires_once (fuel : Nat) (front back : List Op) (op : Op) (handle : Nat)
    (before armed s : BtTimerList) (func data : Nat) (interval : UInt32)
    (ran : run fuel btTimerInit front = .returned before)
    (arming : exec fuel before op = .returned armed) (arms : op.Arms before.num handle)
    (given : (added (front ++ [op]))[handle]? = some ⟨func, data, interval, .btTimerSingle⟩)
    (later : run fuel armed back = .returned s) (left : ∀ op ∈ back, op.Leaves handle) :
    s.callsOf handle = armed.callsOf handle ++
        (if max 1 interval.toNat ≤ ticks back then [⟨handle, func, UInt32.ofNat handle, data⟩]
          else []) ∧
      (s.Linked handle ↔ ticks back < max 1 interval.toNat) := by
  obtain ⟨ts, rep, ordered⟩ := Reachable.represents ⟨fuel, front, ran⟩
  obtain ⟨linked, zero⟩ := exec_arms fuel rep ordered arming arms
  have first := run_concat ran arming
  have fields := run_asAdded fuel first given linked
  have single : (armed.timers handle).type = .btTimerSingle := congrArg Listed.type fields
  have length : (armed.timers handle).interval = interval := congrArg Listed.interval fields
  have found := armed_record fuel first linked zero single
  rw [length] at found
  have continued (middle : List Op) (s : BtTimerList) (go : run fuel armed middle = .returned s) :
      run fuel btTimerInit (front ++ [op] ++ middle) = .returned s := by
    rw [run_append, first]
    exact go
  have kept (middle : List Op) : (added (front ++ [op] ++ middle))[handle]? =
      some ⟨func, data, interval, .btTimerSingle⟩ := by
    rw [added_append, List.getElem?_append_left (List.getElem?_eq_some_iff.mp given).1, given]
  have record (middle : List Op) (left : ∀ op ∈ middle, op.Leaves handle) :
      (history (front ++ [op] ++ middle))[handle]? =
        some ⟨.btTimerSingle, interval, ticks middle, false⟩ := by
    rw [history_left found middle left, Nat.zero_add]
  constructor
  · induction back using List.reverseRecOn generalizing s with
    | nil =>
      obtain rfl := Outcome.returned.inj later
      rw [if_neg (by simp [ticks]), List.append_nil]
    | append_singleton back last ih =>
      obtain ⟨s₁, earlier, step⟩ := run_append_one fuel _ _ back last later
      have left' : ∀ op ∈ back, op.Leaves handle := fun op member =>
        left op (List.mem_append_left _ member)
      rw [single_exec_calls fuel (continued back s₁ earlier) step (kept back) (record back left'),
        ih s₁ earlier left', ticks_append, List.append_assoc]
      congr 1
      -- The tick that completes the interval is the one call.
      cases last.isTick with
      | false => simp
      | true =>
        rcases Nat.lt_trichotomy (ticks back + 1) (max 1 interval.toNat) with early | now | late
        · rw [if_neg (by omega), if_neg (by omega), if_neg (by simp; omega)]
          rfl
        · rw [if_neg (by omega), if_pos ⟨rfl, now⟩, if_pos (by simp; omega)]
          rfl
        · rw [if_pos (by omega), if_neg (by omega), if_pos (by simp; omega)]
          rfl
  · obtain ⟨ts, rep, ordered, tracked, covers⟩ := run_tracks fuel _ s (continued back s later)
    rw [rep.linked_iff, single_listed_iff ordered tracked covers (record back left)]

theorem single_timer_fires_once_beside_repeating :
    let s := (run 5 btTimerInit [.add 7 0 1 .btTimerRepeat, .add 8 3 1 .btTimerSingle, .tick]).state
    s.callsOf 1 = [⟨1, 8, 1, 3⟩] ∧ ¬ s.Linked 1 := by
  have fired := single_timer_fires_once 5 [.add 7 0 1 .btTimerRepeat] [.tick]
    (.add 8 3 1 .btTimerSingle) 1 _ _ _ 8 3 1 rfl rfl rfl rfl rfl (by simp [Op.Leaves])
  refine ⟨fired.1, fun linked => ?_⟩
  exact absurd (fired.2.mp linked) (by decide)

end BTServer.Timer
