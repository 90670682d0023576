import BTServer.Peer.Dispatch
import BTServer.Timer.Single

set_option autoImplicit false

namespace BTServer.Peer

open Blocks Timer BtTimerList

-- What happens at a peer: calls of the timer module, ticks among them, and received strings.
inductive Event where
  | timer (op : Timer.Op)
  | received (string : BString) (m : Memory)

def Event.exec (ptr : PeerMgnt) (fuel : Nat) (timers : BtTimerList) : Event → Timer.Outcome
  | .timer op => Timer.exec fuel timers op
  | .received string m => (dealMessage ptr string m timers).2

def serve (ptr : PeerMgnt) (fuel : Nat) : BtTimerList → List Event → Timer.Outcome
  | timers, [] => .returned timers
  | timers, event :: events =>
    (event.exec ptr fuel timers).andThen fun timers => serve ptr fuel timers events

def TakenForKeepAlive (string : BString) (m : Memory) : Prop :=
  (m.blocks string.data.block).byte (string.data.offset + 4) = peerMessageKeepAlive ∧
    string.len - 4 = 0

instance (string : BString) (m : Memory) : Decidable (TakenForKeepAlive string m) :=
  inferInstanceAs (Decidable (_ ∧ _))

def Event.Leaves (ptr : PeerMgnt) : Event → Prop
  | .timer op => op.Leaves ptr.rcvKeepAlive
  | .received _ _ => True

def Event.hear (ticks : Nat) : Event → Nat
  | .timer op => ticks + if op.isTick then 1 else 0
  | .received string m => if TakenForKeepAlive string m then 0 else ticks

def silence (events : List Event) : Nat := events.foldl Event.hear 0

def Event.ops (ptr : PeerMgnt) : Event → List Timer.Op
  | .timer op => [op]
  | .received string m => if TakenForKeepAlive string m then [.update ptr.rcvKeepAlive] else []

@[simp] theorem silence_append (events : List Event) (event : Event) :
    silence (events ++ [event]) = event.hear (silence events) := by
  simp [silence]

theorem dealMessage_timers (ptr : PeerMgnt) (string : BString) (m : Memory) (timers : BtTimerList) :
    (dealMessage ptr string m timers).2 =
      if TakenForKeepAlive string m then timers.btTimerUpdate ptr.rcvKeepAlive
      else .returned timers := by
  simp only [dealMessage, dealKeepAlive]
  split
  next first =>
    split
    next other => rw [if_neg fun both => other both.2]
    next zero => rw [if_pos ⟨first, by simpa using zero⟩]
  next other => rw [if_neg fun both => other both.1]

theorem Event.exec_eq (ptr : PeerMgnt) (fuel : Nat) (timers : BtTimerList) (event : Event) :
    event.exec ptr fuel timers = run fuel timers (event.ops ptr) := by
  have last (o : Timer.Outcome) : o.andThen (fun s => .returned s) = o := by cases o <;> rfl
  cases event with
  | timer op => exact (last _).symm
  | received string m =>
    rw [Event.exec, dealMessage_timers, Event.ops]
    split
    next => exact (last _).symm
    next => rfl

theorem serve_eq (ptr : PeerMgnt) (fuel : Nat) (timers : BtTimerList) (events : List Event) :
    serve ptr fuel timers events = run fuel timers (events.flatMap (Event.ops ptr)) := by
  induction events generalizing timers with
  | nil => rfl
  | cons event events ih =>
    rw [serve, List.flatMap_cons, run_append, Event.exec_eq]
    exact congrArg _ (funext ih)

theorem Event.remember {records : List Record} {ptr : PeerMgnt} {interval : UInt32} {age : Nat}
    (found : records[ptr.rcvKeepAlive]? = some ⟨.btTimerSingle, interval, age, false⟩)
    (event : Event) (leaves : event.Leaves ptr) :
    ((event.ops ptr).foldl Timer.remember records)[ptr.rcvKeepAlive]? =
      some ⟨.btTimerSingle, interval, event.hear age, false⟩ := by
  cases event with
  | timer op => exact remember_left found op leaves
  | received string m =>
    simp only [Event.ops, Event.hear]
    split
    next =>
      simp only [List.foldl_cons, List.foldl_nil, Timer.remember]
      rw [List.getElem?_modify_eq, found]
      rfl
    next => exact found

theorem history_ops (ptr : PeerMgnt) {front : List Timer.Op} {interval : UInt32}
    (found : (history front)[ptr.rcvKeepAlive]? = some ⟨.btTimerSingle, interval, 0, false⟩)
    (events : List Event) (left : ∀ event ∈ events, event.Leaves ptr) :
    (history (front ++ events.flatMap (Event.ops ptr)))[ptr.rcvKeepAlive]? =
      some ⟨.btTimerSingle, interval, silence events, false⟩ := by
  induction events using List.reverseRecOn with
  | nil =>
    rw [List.flatMap_nil, List.append_nil]
    exact found
  | append_singleton events event ih =>
    have earlier := ih fun e member => left e (List.mem_append_left _ member)
    rw [List.flatMap_append, List.flatMap_singleton, ← List.append_assoc, history,
      List.foldl_append, silence_append]
    exact Event.remember earlier event (left event (by simp))

theorem serve_append_one {ptr : PeerMgnt} {fuel : Nat} {timers s : BtTimerList} {events : List Event}
    {event : Event} (served : serve ptr fuel timers (events ++ [event]) = .returned s) :
    ∃ s₁, serve ptr fuel timers events = .returned s₁ ∧ event.exec ptr fuel s₁ = .returned s := by
  rw [serve_eq, List.flatMap_append, List.flatMap_singleton, run_append, ← serve_eq] at served
  cases first : serve ptr fuel timers events with
  | returned s₁ =>
    rw [first] at served
    exact ⟨s₁, rfl, (Event.exec_eq ptr fuel s₁ event).trans served⟩
  | fault s₁ =>
    rw [first] at served
    exact Timer.Outcome.noConfusion served
  | running s₁ =>
    rw [first] at served
    exact Timer.Outcome.noConfusion served

def Watched (fuel : Nat) (ptr : PeerMgnt) (armed : BtTimerList) : Prop :=
  ∃ ops, run fuel btTimerInit ops = .returned armed ∧ (history ops)[ptr.rcvKeepAlive]? =
    some ⟨.btTimerSingle, (armed.timers ptr.rcvKeepAlive).interval, 0, false⟩

def PeerMgnt.limit (ptr : PeerMgnt) (armed : BtTimerList) : Nat :=
  max 1 (armed.timers ptr.rcvKeepAlive).interval.toNat

theorem watched_of_arms {fuel : Nat} {ptr : PeerMgnt} {front : List Timer.Op} {op : Timer.Op}
    {before armed : BtTimerList} (ran : run fuel btTimerInit front = .returned before)
    (arming : Timer.exec fuel before op = .returned armed)
    (arms : op.Arms before.num ptr.rcvKeepAlive)
    (single : (armed.timers ptr.rcvKeepAlive).type = .btTimerSingle) : Watched fuel ptr armed := by
  obtain ⟨ts, rep, ordered⟩ := Reachable.represents ⟨fuel, front, ran⟩
  obtain ⟨linked, zero⟩ := exec_arms fuel rep ordered arming arms
  have first : run fuel btTimerInit (front ++ [op]) = .returned armed := by
    rw [run_append, ran]
    simp only [Timer.Outcome.andThen, run, arming]
  exact ⟨front ++ [op], first, armed_record fuel first linked zero single⟩

section Serving

variable {fuel : Nat} {ptr : PeerMgnt} {armed s : BtTimerList} {events : List Event}

theorem Watched.tracks (watched : Watched fuel ptr armed)
    (left : ∀ event ∈ events, event.Leaves ptr)
    (served : serve ptr fuel armed events = .returned s) :
    ∃ records ts, Represents s ts ∧ Ordered ts ∧ Tracked OnTime records ts ∧ Covers records ts ∧
      records[ptr.rcvKeepAlive]? = some ⟨.btTimerSingle,
        (armed.timers ptr.rcvKeepAlive).interval, silence events, false⟩ := by
  obtain ⟨ops, ran, found⟩ := watched
  have whole : run fuel btTimerInit (ops ++ events.flatMap (Event.ops ptr)) = .returned s := by
    rw [run_append, ran]
    exact (serve_eq ptr fuel armed events).symm.trans served
  obtain ⟨ts, rep, ordered, tracked, covers⟩ := run_tracks fuel _ s whole
  exact ⟨_, ts, rep, ordered, tracked, covers, history_ops ptr found events left⟩

theorem Watched.linked_iff (watched : Watched fuel ptr armed)
    (left : ∀ event ∈ events, event.Leaves ptr)
    (served : serve ptr fuel armed events = .returned s) :
    s.Linked ptr.rcvKeepAlive ↔ silence events < ptr.limit armed := by
  obtain ⟨records, ts, rep, ordered, tracked, covers, record⟩ := watched.tracks left served
  rw [rep.linked_iff, single_listed_iff ordered tracked covers record]
  rfl

theorem Watched.late (watched : Watched fuel ptr armed) (left : ∀ event ∈ events, event.Leaves ptr)
    (served : serve ptr fuel armed events = .returned s) (long : ptr.limit armed ≤ silence events)
    (string : BString) (m : Memory) (taken : TakenForKeepAlive string m) :
    ∃ s', (dealMessage ptr string m s).2 = .fault s' := by
  obtain ⟨records, ts, rep, ordered, tracked, covers, record⟩ := watched.tracks left served
  have gone : ptr.rcvKeepAlive ∉ ts.map Listed.handle := fun listed =>
    absurd ((single_listed_iff ordered tracked covers record).mp listed) (Nat.not_lt.mpr long)
  rw [dealMessage_timers, if_pos taken]
  exact ⟨_, exec_not_listed fuel (.update ptr.rcvKeepAlive) rep _ (.inl rfl) gone⟩

theorem Watched.tick_calls (watched : Watched fuel ptr armed)
    (left : ∀ event ∈ events, event.Leaves ptr) {s' : BtTimerList}
    (served : serve ptr fuel armed events = .returned s) (tick : s.btTimerFunc fuel = .returned s') :
    s'.calls ptr.rcvKeepAlive = s.calls ptr.rcvKeepAlive +
      if silence events + 1 = ptr.limit armed then 1 else 0 := by
  obtain ⟨records, ts, rep, ordered, tracked, covers, record⟩ := watched.tracks left served
  obtain ⟨ended, count⟩ := Timer.tick_calls fuel rep ordered tick ptr.rcvKeepAlive
  rw [count, single_tick ordered rep.nodup tracked covers record fuel ended]
  rfl

theorem Watched.calls (watched : Watched fuel ptr armed) (left : ∀ event ∈ events, event.Leaves ptr)
    (served : serve ptr fuel armed events = .returned s) :
    s.calls ptr.rcvKeepAlive = armed.calls ptr.rcvKeepAlive +
      if ptr.limit armed ≤ silence events then 1 else 0 := by
  have positive : 1 ≤ ptr.limit armed := le_max_left _ _
  induction events using List.reverseRecOn generalizing s with
  | nil =>
    obtain rfl := Timer.Outcome.returned.inj served
    rw [if_neg (by simp only [silence, List.foldl_nil]; omega), Nat.add_zero]
  | append_singleton events event ih =>
    obtain ⟨s₁, earlier, step⟩ := serve_append_one served
    have left' : ∀ e ∈ events, e.Leaves ptr := fun e member =>
      left e (List.mem_append_left _ member)
    have so_far := ih left' earlier
    rw [silence_append]
    cases event with
    | timer op =>
      cases kind : op.isTick with
      | false =>
        have same := exec_invoked fuel s₁ op kind
        rw [show Timer.exec fuel s₁ op = .returned s from step] at same
        simp only [Event.hear, kind]
        rw [BtTimerList.calls, show s.invoked = s₁.invoked from same]
        exact so_far
      | true =>
        obtain rfl : op = .tick := by cases op <;> first | rfl | exact Bool.noConfusion kind
        rw [watched.tick_calls left' earlier step, so_far]
        simp only [Event.hear, kind, if_true]
        split <;> split <;> split <;> omega
    | received string m =>
      simp only [Event.exec, dealMessage_timers] at step
      by_cases taken : TakenForKeepAlive string m
      · -- The timer has not expired, or the message would have faulted.
        have early : ¬ ptr.limit armed ≤ silence events := by
          intro long
          obtain ⟨s', fault⟩ := watched.late left' earlier long string m taken
          rw [dealMessage_timers] at fault
          exact Timer.Outcome.noConfusion (fault.symm.trans step)
        rw [if_pos taken] at step
        have same := exec_invoked fuel s₁ (.update ptr.rcvKeepAlive) rfl
        rw [show Timer.exec fuel s₁ (.update ptr.rcvKeepAlive) = .returned s from step] at same
        simp only [Event.hear, if_pos taken]
        rw [BtTimerList.calls, show s.invoked = s₁.invoked from same, if_neg (by omega)]
        rw [if_neg early] at so_far
        exact so_far
      · rw [if_neg taken] at step
        obtain rfl := Timer.Outcome.returned.inj step
        simpa only [Event.hear, if_neg taken] using so_far

end Serving

/-- The peer's single-shot timer runs its callback once as many ticks as its interval have gone by
without a keep-alive message, and not before. A keep-alive message behind that faults. -/
theorem keep_alive_watchdog (fuel : Nat) (ptr : PeerMgnt) (front : List Timer.Op) (op : Timer.Op)
    (before armed : BtTimerList) (ran : run fuel btTimerInit front = .returned before)
    (arming : Timer.exec fuel before op = .returned armed)
    (arms : op.Arms before.num ptr.rcvKeepAlive)
    (single : (armed.timers ptr.rcvKeepAlive).type = .btTimerSingle) (events : List Event)
    (left : ∀ event ∈ events, event.Leaves ptr) (s : BtTimerList)
    (served : serve ptr fuel armed events = .returned s) :
    s.calls ptr.rcvKeepAlive = armed.calls ptr.rcvKeepAlive +
        (if ptr.limit armed ≤ silence events then 1 else 0) ∧
      (s.Linked ptr.rcvKeepAlive ↔ silence events < ptr.limit armed) ∧
      (ptr.limit armed ≤ silence events → ∀ string m, TakenForKeepAlive string m →
        ∃ s', (dealMessage ptr string m s).2 = .fault s') := by
  have watched := watched_of_arms ran arming arms single
  exact ⟨watched.calls left served, watched.linked_iff left served, watched.late left served⟩

def zeroMemory : Memory := { blocks := fun _ => ⟨5, fun _ => 0⟩, next := 1, accesses := [], freed := [] }

-- Two ticks with a keep-alive message between them do not use up an interval of two.
theorem keep_alive_watchdog_restarted : ∃ s,
    serve ⟨0⟩ 5 (btTimerInit.btTimerAdd 7 0 2 .btTimerSingle)
      [.timer .tick, .received ⟨⟨0, 0⟩, ⟨0, 0⟩, 4⟩ zeroMemory, .timer .tick] = .returned s ∧
    s.calls 0 = 0 ∧ s.Linked 0 := by
  refine ⟨_, rfl, ?_⟩
  have watch := keep_alive_watchdog 5 ⟨0⟩ [] (.add 7 0 2 .btTimerSingle) btTimerInit
    (btTimerInit.btTimerAdd 7 0 2 .btTimerSingle) rfl rfl rfl rfl
    [.timer .tick, .received ⟨⟨0, 0⟩, ⟨0, 0⟩, 4⟩ zeroMemory, .timer .tick]
    (by simp [Event.Leaves, Timer.Op.Leaves]) _ rfl
  exact ⟨watch.1, watch.2.1.mpr (by decide)⟩

end BTServer.Peer
