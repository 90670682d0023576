import BTServer.Timer.Static

set_option autoImplicit false

namespace BTServer.Timer

open LinkedList BtTimerList

inductive SigHandler where
  | sigDfl
  | sigIgn
  | sigErr
  | btTimerFunc
  | other (handler : Nat)
  deriving DecidableEq

-- What a process has of the timers: what SIGALRM does, whether the interval timer runs, and the
-- static `timer_list` with the blocks of all timers that were ever added, numbered in that order.
-- Those from `base` on were added to the list in use. `returned` has the results of
-- `bt_timer_init`.
structure Process where
  sigalrm : SigHandler
  itimer : Bool
  oldSigfunc : SigHandler
  list : BtTimerList
  base : Nat
  returned : List Int

inductive Fate where
  | alive (p : Process)
  | killed
  | fault
  | running

inductive Event where
  | init (signal setitimer : Bool)
  | finit
  | alarm
  | add (func data : Nat) (interval : UInt32) (type : BtTimerType)
  | update (handle : Nat)
  | del (handle : Nat)

namespace Process

/-- Static storage begins as zeros. -/
def boot (sigalrm : SigHandler) : Process :=
  { sigalrm
    itimer := false
    oldSigfunc := .sigDfl
    list := { btTimerInit with links := fun _ => ⟨.null, .null⟩ }
    base := 0
    returned := [] }

/-- `signal` refuses `SIG_ERR`. -/
def setHandler (p : Process) (handler : SigHandler) : Process :=
  if handler = .sigErr then p else { p with sigalrm := handler }

-- Timers that were added before keep their links, also those into the list head. The result of
-- `signal` is stored before it is compared with `SIG_ERR`.
def init (p : Process) (signal setitimer : Bool) : Process :=
  let p := { p with list := Static.btTimerInit p.list, base := p.list.num }
  if signal then
    { p with
      oldSigfunc := p.sigalrm
      sigalrm := .btTimerFunc
      itimer := p.itimer || setitimer
      returned := p.returned ++ [if setitimer then 0 else -1] }
  else { p with oldSigfunc := .sigErr, returned := p.returned ++ [-1] }

def onList (p : Process) (f : BtTimerList → Outcome) : Fate :=
  match f p.list with
  | .returned l => .alive { p with list := l }
  | .fault _ => .fault
  | .running _ => .running

def finit (p : Process) (fuel : Nat) : Fate :=
  match (p.setHandler p.oldSigfunc).onList (Static.btTimerFinit fuel) with
  | .alive p => .alive { p with oldSigfunc := .sigDfl, base := p.list.num }
  | fate => fate

def call (p : Process) (fuel : Nat) (op : Op) : Fate := p.onList (Static.exec fuel p.base · op)

def alarm (p : Process) (fuel : Nat) : Fate :=
  if p.itimer then
    match p.sigalrm with
    | .sigDfl => .killed
    | .btTimerFunc => p.call fuel .tick
    | _ => .alive p
  else .alive p

def exec (p : Process) (fuel : Nat) : Event → Fate
  | .init signal setitimer => .alive (p.init signal setitimer)
  | .finit => p.finit fuel
  | .alarm => p.alarm fuel
  | .add func data interval type => p.call fuel (.add func data interval type)
  | .update handle => p.call fuel (.update handle)
  | .del handle => p.call fuel (.del handle)

def live (fuel : Nat) : Process → List Event → Fate
  | p, [] => .alive p
  | p, e :: es =>
    match p.exec fuel e with
    | .alive p => live fuel p es
    | fate => fate

end Process

def Event.Succeeds : Event → Prop
  | .init signal setitimer => signal = true ∧ setitimer = true
  | _ => True

-- What the calls so far say: whether the last of `bt_timer_init` and `bt_timer_finit` was the
-- first, whether `bt_timer_init` was ever called a second time before `bt_timer_finit`, how many
-- timers were added, how many of them before the list in use, whether one was ever updated or
-- deleted that is not of the list in use, and the operations on that list.
structure Note where
  started : Bool
  inside : Bool
  doubled : Bool
  strayed : Bool
  added : Nat
  base : Nat
  session : List Op

def Note.own (n : Note) (handle : Nat) : Bool := n.base ≤ handle && handle < n.added

def Note.step (n : Note) : Event → Note
  | .init _ _ =>
    { n with
      started := true
      inside := true
      doubled := n.doubled || n.inside
      base := n.added
      session := [] }
  | .finit => { n with inside := false, base := n.added }
  | .alarm => { n with session := n.session ++ [.tick] }
  | .add func data interval type =>
    { n with added := n.added + 1, session := n.session ++ [.add func data interval type] }
  | .update handle =>
    { n with
      strayed := n.strayed || !n.own handle
      session := n.session ++ [.update (handle - n.base)] }
  | .del handle =>
    { n with
      strayed := n.strayed || !n.own handle
      session := n.session ++ [.del (handle - n.base)] }

def note (es : List Event) : Note := es.foldl Note.step ⟨false, false, false, false, 0, 0, []⟩

def Note.restored (n : Note) (sigalrm : SigHandler) : SigHandler :=
  if n.doubled then .btTimerFunc else sigalrm

-- As long as `bt_timer_init` was never called twice, no timer of an earlier list is still linked.
structure Counts (n : Note) (p : Process) : Prop where
  base : p.base = n.base
  added : p.list.num = n.added
  gone : n.doubled = false → ∀ handle < n.base, (p.list.links (.timer handle)).next.Valid = false

-- The three phases of a process: not begun, inside and between.
inductive Phase (fuel : Nat) (sigalrm : SigHandler) (n : Note) (p : Process) : Prop
  | before (started : n.started = false) (inside : n.inside = false) (doubled : n.doubled = false)
      (handler : p.sigalrm = sigalrm) (itimer : p.itimer = false) (ended : n.base = n.added)
      (empty : (p.list.links .timerList).next = .null) (counts : Counts n p)
  | inside (started : n.started = true) (inside : n.inside = true)
      (handler : p.sigalrm = .btTimerFunc) (itimer : p.itimer = true)
      (old : p.oldSigfunc = n.restored sigalrm) (counts : Counts n p) (before l : BtTimerList)
      (ran : run fuel btTimerInit n.session = .returned l)
      (carries : Static.Carries n.base before l p.list)
  | between (started : n.started = true) (inside : n.inside = false)
      (handler : p.sigalrm = n.restored sigalrm) (itimer : p.itimer = true)
      (ended : n.base = n.added) (empty : (p.list.links .timerList).next = .null)
      (counts : Counts n p)

section Phases

variable {fuel : Nat} {sigalrm : SigHandler} {n : Note} {p p' : Process}

theorem onList_alive {f : BtTimerList → Outcome} (alive : p.onList f = .alive p') :
    ∃ l, f p.list = .returned l ∧ p' = { p with list := l } := by
  unfold Process.onList at alive
  split at alive
  next l result => exact ⟨l, result, (Fate.alive.inj alive).symm⟩
  next => exact Fate.noConfusion alive
  next => exact Fate.noConfusion alive

def Op.adds : Op → Nat
  | .add _ _ _ _ => 1
  | _ => 0

theorem remember_length (records : List Record) (op : Op) :
    (remember records op).length = records.length + op.adds := by
  cases op <;> simp [remember, Op.adds]

theorem onList_fault {f : BtTimerList → Outcome} (faults : ∃ l, f p.list = .fault l) :
    p.onList f = .fault := by
  obtain ⟨l, result⟩ := faults
  simp only [Process.onList, result]

theorem call_fault {op : Op} (faults : ∃ l, Static.exec fuel p.base p.list op = .fault l) :
    p.call fuel op = .fault :=
  onList_fault faults

theorem Counts.outside (counts : Counts n p) (empty : (p.list.links .timerList).next = .null)
    (ended : n.base = n.added) (op : Op) (names : op.Names (n.added - n.base)) :
    p.call fuel (op.shift n.base) = .fault := by
  rw [ended, Nat.sub_self] at names
  rw [← counts.base]
  exact call_fault (Static.exec_null empty fuel p.base op names)

theorem Phase.call (op : Op) (strayed : Bool) (phase : Phase fuel sigalrm n p)
    (names : op.Names (n.added - n.base))
    (alive : p.call fuel (op.shift n.base) = .alive p') :
    Phase fuel sigalrm
      { n with strayed, added := n.added + op.adds, session := n.session ++ [op] } p' := by
  cases phase with
  | before _ _ _ _ _ ended empty counts =>
    rw [counts.outside empty ended op names] at alive
    exact Fate.noConfusion alive
  | between _ _ _ _ ended empty counts =>
    rw [counts.outside empty ended op names] at alive
    exact Fate.noConfusion alive
  | inside started inside handler itimer old counts before l ran carries =>
    obtain ⟨m', result, rfl⟩ := onList_alive alive
    obtain ⟨ts, rep, ordered, num⟩ := run_represents ran
    have below : n.added - n.base = l.num := by
      rw [← counts.added, carries.num, Nat.add_sub_cancel]
    have follows := carries.exec fuel rep ordered op (below ▸ names)
    rw [counts.base] at result
    rw [result] at follows
    obtain ⟨l', step, carries'⟩ := follows.of_returned
    have ran' := run_concat ran step
    obtain ⟨-, -, -, num'⟩ := run_represents ran'
    rw [history_append, remember_length, ← num] at num'
    refine .inside started inside handler itimer old ⟨counts.base, ?_, fun once handle earlier => ?_⟩
      before l' ran' carries'
    · rw [carries'.num, num', ← counts.added, carries.num]
      exact Nat.add_right_comm _ _ _
    · rw [carries'.earlier handle earlier, ← carries.earlier handle earlier]
      exact counts.gone once handle earlier

theorem Phase.alarm (phase : Phase fuel sigalrm n p) (alive : p.alarm fuel = .alive p') :
    Phase fuel sigalrm { n with session := n.session ++ [.tick] } p' := by
  cases phase with
  | before started inside doubled handler itimer ended empty counts =>
    rw [Process.alarm, itimer] at alive
    obtain rfl := Fate.alive.inj alive
    exact .before started inside doubled handler itimer ended empty ⟨counts.1, counts.2, counts.3⟩
  | inside started inside handler itimer old counts before l ran carries =>
    simp only [Process.alarm, itimer, handler] at alive
    exact Phase.call .tick n.strayed
      (.inside started inside handler itimer old counts before l ran carries) True.intro alive
  | between started inside handler itimer ended empty counts =>
    simp only [Process.alarm, itimer, if_true] at alive
    split at alive
    next => exact Fate.noConfusion alive
    next =>
      have faults : p.call fuel .tick = .fault := counts.outside empty ended .tick True.intro
      rw [faults] at alive
      exact Fate.noConfusion alive
    next =>
      obtain rfl := Fate.alive.inj alive
      exact .between started inside handler itimer ended empty ⟨counts.1, counts.2, counts.3⟩

theorem finit_null (empty : (p.list.links .timerList).next = .null) : p.finit fuel = .fault := by
  have kept : (p.setHandler p.oldSigfunc).list = p.list := by
    rw [Process.setHandler]
    split <;> rfl
  have faults : (p.setHandler p.oldSigfunc).onList (Static.btTimerFinit fuel) = .fault := by
    refine onList_fault ⟨p.list, ?_⟩
    rw [kept, Static.btTimerFinit, Static.forEachSafe_null empty]
    rfl
  simp only [Process.finit, faults]

theorem Phase.finit (real : sigalrm ≠ .sigErr) (phase : Phase fuel sigalrm n p)
    (alive : p.finit fuel = .alive p') :
    Phase fuel sigalrm { n with inside := false, base := n.added } p' := by
  cases phase with
  | before _ _ _ _ _ _ empty _ =>
    rw [finit_null empty] at alive
    exact Fate.noConfusion alive
  | between _ _ _ _ _ empty _ =>
    rw [finit_null empty] at alive
    exact Fate.noConfusion alive
  | inside started inside handler itimer old counts before l ran carries =>
    have proper : n.restored sigalrm ≠ .sigErr := by
      rw [Note.restored]
      split
      next => exact SigHandler.noConfusion
      next => exact real
    simp only [Process.finit, Process.setHandler, old, if_neg proper] at alive
    split at alive
    next q done =>
      obtain ⟨m', result, rfl⟩ := onList_alive done
      obtain rfl := Fate.alive.inj alive
      obtain ⟨ts, rep, -, -⟩ := run_represents ran
      obtain ⟨empty, num, earlier, own⟩ := carries.btTimerFinit rep result
      refine .between started rfl rfl itimer rfl empty
        ⟨num.trans counts.added, num.trans counts.added, fun once handle below => ?_⟩
      -- A timer of an earlier list was unlinked already, one of this list has been just now.
      rcases Nat.lt_or_ge handle n.base with older | newer
      · have gone := counts.gone once handle older
        rw [carries.earlier handle older, ← earlier handle older] at gone
        exact gone
      · obtain ⟨k, rfl⟩ := Nat.exists_eq_add_of_le' newer
        refine own k ?_
        have total := carries.num
        rw [counts.added] at total
        have : k + n.base < n.added := below
        omega
    next other =>
      exact absurd alive (other _)

theorem Phase.counts (phase : Phase fuel sigalrm n p) : Counts n p := by
  cases phase <;> assumption

theorem Phase.init (phase : Phase fuel sigalrm n p) :
    Phase fuel sigalrm (n.step (.init true true)) (p.init true true) := by
  have counts := phase.counts
  have carries := Static.btTimerInit_carries p.list
  rw [counts.added] at carries
  refine .inside rfl rfl rfl (Bool.or_true _) ?_
    ⟨counts.added, counts.added, fun once handle earlier => ?_⟩ p.list btTimerInit rfl carries
  -- The handler found is the one that was there at first only when none is installed already.
  · cases phase with
    | before _ inside doubled handler =>
      simp [Process.init, handler, Note.step, Note.restored, inside, doubled]
    | inside _ inside handler => simp [Process.init, handler, Note.step, Note.restored, inside]
    | between _ inside handler => simp [Process.init, handler, Note.step, Note.restored, inside]
  · obtain ⟨once, outside⟩ := Bool.or_eq_false_iff.mp once
    have ended : n.base = n.added := by
      cases phase with
      | before _ _ _ _ _ ended => exact ended
      | inside _ inside => exact Bool.noConfusion (outside.symm.trans inside)
      | between _ _ _ _ ended => exact ended
    have same : (p.init true true).list.links (.timer handle) = p.list.links (.timer handle) :=
      carries.earlier handle earlier
    rw [same]
    exact counts.gone once handle (ended ▸ earlier)

theorem Note.own_iff (n : Note) (handle : Nat) :
    n.own handle = true ↔ n.base ≤ handle ∧ handle < n.added := by
  simp [Note.own]

theorem Phase.step (real : sigalrm ≠ .sigErr) (phase : Phase fuel sigalrm n p) (e : Event)
    (succeeds : e.Succeeds) (own : (n.step e).strayed = false)
    (alive : p.exec fuel e = .alive p') : Phase fuel sigalrm (n.step e) p' := by
  have named {handle : Nat} (own : (n.strayed || !n.own handle) = false) :
      handle - n.base + n.base = handle ∧ handle - n.base < n.added - n.base := by
    have := (n.own_iff handle).mp (by simpa using (Bool.or_eq_false_iff.mp own).2)
    omega
  cases e with
  | init signal setitimer =>
    obtain ⟨rfl, rfl⟩ := succeeds
    obtain rfl := Fate.alive.inj alive
    exact phase.init
  | finit => exact phase.finit real alive
  | alarm => exact phase.alarm alive
  | add func data interval type =>
    exact phase.call (.add func data interval type) n.strayed True.intro alive
  | update handle =>
    obtain ⟨same, below⟩ := named own
    refine phase.call (.update (handle - n.base)) _ below ?_
    rw [Op.shift, same]
    exact alive
  | del handle =>
    obtain ⟨same, below⟩ := named own
    refine phase.call (.del (handle - n.base)) _ below ?_
    rw [Op.shift, same]
    exact alive

theorem Note.strayed_of_step (n : Note) (e : Event) (own : (n.step e).strayed = false) :
    n.strayed = false := by
  cases e with
  | update handle => exact (Bool.or_eq_false_iff.mp own).1
  | del handle => exact (Bool.or_eq_false_iff.mp own).1
  | _ => exact own

theorem Note.strayed_of_steps (n : Note) (es : List Event)
    (own : (es.foldl Note.step n).strayed = false) : n.strayed = false := by
  induction es generalizing n with
  | nil => exact own
  | cons e es ih => exact n.strayed_of_step e (ih (n.step e) own)

theorem live_phase (real : sigalrm ≠ .sigErr) (es : List Event) (ok : ∀ e ∈ es, e.Succeeds)
    (own : (es.foldl Note.step n).strayed = false) (phase : Phase fuel sigalrm n p)
    (survived : p.live fuel es = .alive p') :
    Phase fuel sigalrm (es.foldl Note.step n) p' := by
  induction es generalizing n p with
  | nil =>
    obtain rfl := Fate.alive.inj survived
    exact phase
  | cons e es ih =>
    rw [Process.live] at survived
    split at survived
    next q step =>
      exact ih (fun e member => ok e (List.mem_cons_of_mem _ member)) own
        (phase.step real e (ok e List.mem_cons_self) ((n.step e).strayed_of_steps es own) step)
        survived
    next other => exact absurd survived (other _)

theorem Phase.empty (phase : Phase fuel sigalrm n p) (outside : n.inside = false) :
    (p.list.links .timerList).next = .null := by
  cases phase with
  | before _ _ _ _ _ _ empty => exact empty
  | between _ _ _ _ _ empty => exact empty
  | inside _ inside => exact Bool.noConfusion (outside.symm.trans inside)

theorem alarm_between (itimer : p.itimer = true)
    (empty : (p.list.links .timerList).next = .null) :
    p.alarm fuel = if p.sigalrm = .btTimerFunc then .fault
      else if p.sigalrm = .sigDfl then .killed else .alive p := by
  simp only [Process.alarm, itimer, if_true]
  cases handler : p.sigalrm with
  | btTimerFunc => exact call_fault (Static.exec_null empty fuel p.base .tick trivial)
  | _ => rfl

end Phases

/-- The interval timer is not stopped by `bt_timer_finit`: the next SIGALRM has the effect it had
before `bt_timer_init`, or it runs `bt_timer_func` without a list when `bt_timer_init` had been
called twice. As long as only timers of the list in use are updated and deleted, that list is the
one of a run of its own, whatever was added before. A timer of an earlier list can be updated or
deleted only when `bt_timer_init` had been called twice. -/
theorem process_phases (fuel : Nat) (sigalrm : SigHandler) (real : sigalrm ≠ .sigErr)
    (es : List Event) (ok : ∀ e ∈ es, e.Succeeds) (own : (note es).strayed = false) (p : Process)
    (survived : (Process.boot sigalrm).live fuel es = .alive p) :
    ((note es).inside = true → p.itimer = true ∧ p.sigalrm = .btTimerFunc ∧
      ∃ before l, run fuel btTimerInit (note es).session = .returned l ∧
        Static.Carries (note es).base before l p.list) ∧
    ((note es).inside = false → (note es).started = true → p.alarm fuel =
      if (note es).doubled = true ∨ sigalrm = .btTimerFunc then .fault
      else if sigalrm = .sigDfl then .killed else .alive p) ∧
    ((note es).inside = false → p.exec fuel .finit = .fault ∧
      ∀ func data interval type, p.exec fuel (.add func data interval type) = .fault) ∧
    ((note es).doubled = false → ∀ handle < (note es).base,
      p.exec fuel (.update handle) = .fault ∧ p.exec fuel (.del handle) = .fault) := by
  have boot : Phase fuel sigalrm ⟨false, false, false, false, 0, 0, []⟩ (Process.boot sigalrm) :=
    .before rfl rfl rfl rfl rfl rfl rfl
      ⟨rfl, rfl, fun _ handle below => absurd below (Nat.not_lt_zero _)⟩
  have phase : Phase fuel sigalrm (note es) p := live_phase real es ok own boot survived
  refine ⟨fun inside => ?_, fun outside started => ?_, fun outside => ?_, fun once handle below => ?_⟩
  · cases phase with
    | inside _ _ handler itimer _ _ before l ran carries =>
      exact ⟨itimer, handler, before, l, ran, carries⟩
    | before _ outside => exact Bool.noConfusion (outside.symm.trans inside)
    | between _ outside => exact Bool.noConfusion (outside.symm.trans inside)
  · have empty := phase.empty outside
    cases phase with
    | inside _ inside => exact Bool.noConfusion (outside.symm.trans inside)
    | before fresh => exact Bool.noConfusion (fresh.symm.trans started)
    | between _ _ handler itimer _ _ _ =>
      rw [alarm_between itimer empty, handler, Note.restored]
      cases (note es).doubled <;> simp
  · have empty := phase.empty outside
    refine ⟨finit_null empty, fun func data interval type => ?_⟩
    exact call_fault (Static.exec_null empty fuel p.base (.add func data interval type) trivial)
  · have loose := phase.counts.gone once handle below
    obtain ⟨update, del⟩ := Static.exec_loose loose fuel p.base
    exact ⟨call_fault update, call_fault del⟩

-- Two calls of `bt_timer_init`, one of `bt_timer_finit`: the next SIGALRM finds no list.
theorem process_phases_doubled : ∃ p,
    (Process.boot .sigDfl).live 5 [.init true true, .add 7 0 3 .btTimerRepeat, .init true true,
        .add 8 0 2 .btTimerSingle, .update 1, .finit] = .alive p ∧
      p.alarm 5 = .fault := by
  refine ⟨_, rfl, ?_⟩
  exact (process_phases 5 .sigDfl (by decide) [.init true true, .add 7 0 3 .btTimerRepeat,
    .init true true, .add 8 0 2 .btTimerSingle, .update 1, .finit]
    (by simp [Event.Succeeds]) rfl _ rfl).2.1 rfl rfl

-- The timer from before the second `bt_timer_init` comes back through its own links, and so it does
-- after `bt_timer_finit`.
example : ∃ p, (Process.boot .sigDfl).live 5 [.init true true, .add 7 0 3 .btTimerRepeat,
      .init true true, .update 0] = .alive p ∧
    (p.list.links .timerList).next = .timer 0 :=
  ⟨_, rfl, rfl⟩

example : ∃ p, (Process.boot .sigDfl).live 5 [.init true true, .add 7 0 3 .btTimerRepeat,
      .init true true, .finit, .update 0] = .alive p ∧
    (p.list.links .timerList).next = .timer 0 :=
  ⟨_, rfl, rfl⟩

end BTServer.Timer
