import BTServer.Socket.LinkRefinement

set_option autoImplicit false

-- The links against the lists, and the lists against the queue that has all the memory it asks for.
namespace BTServer.Socket.Linked

open LinkedList Outcome SendQueue

def entryOf (u : SendUnit) : Entry :=
  ⟨u.dest, u.source, some u.buf, u.cb, u.arg, u.timeout, u.retry, u.refCount⟩

def lift (q : SendQueue) (units : Nat → Entry) (mallocs : Nat) : State Lists where
  cells := ⟨q.refBits, q.mem, q.sendBufs, q.bufCount, units, q.unitCount, q.freed, mallocs⟩
  lists := ⟨q.sendBufList, q.sendUnitList⟩

def Lifts (q : SendQueue) (units : Nat → Entry) : Prop :=
  ∀ u < q.unitCount, units u = entryOf (q.sendUnits u)

def always (_calls : Nat) : Bool := true

theorem getSendBuf_lift (q : SendQueue) (units : Nat → Entry) (mallocs buf buflen : Nat) :
    ∃ mallocs', getSendBuf listOps always buf buflen (lift q units mallocs) =
      .done (some (q.getSendBuf buf buflen).1) (lift (q.getSendBuf buf buflen).2 units mallocs') := by
  have test : (lift q units mallocs).cells.same buf buflen = q.same buf buflen := rfl
  have found : listOps.search (q.same buf buflen) (lift q units mallocs) =
      .done (q.sendBufList.find? (q.same buf buflen)) (lift q units mallocs) := rfl
  rw [getSendBuf, SendQueue.getSendBuf, test, found, done_andThen]
  cases q.sendBufList.find? (q.same buf buflen) with
  | some ptr => exact ⟨_, rfl⟩
  | none => exact ⟨_, rfl⟩

theorem getSendBuf_units (q : SendQueue) (buf buflen : Nat) :
    (q.getSendBuf buf buflen).2.sendUnits = q.sendUnits ∧
      (q.getSendBuf buf buflen).2.unitCount = q.unitCount := by
  rw [SendQueue.getSendBuf]
  cases q.sendBufList.find? (q.same buf buflen) <;> exact ⟨rfl, rfl⟩

theorem getSendUnit_lift {q : SendQueue} {units : Nat → Entry} (lifts : Lifts q units)
    (mallocs : Nat) (dest source : SockaddrIn) (buf buflen cb arg : Nat) (wait retry : Int32) :
    ∃ units' mallocs', Lifts (q.getSendUnit dest source buf buflen cb arg wait retry).2 units' ∧
      getSendUnit listOps always dest source buf buflen cb arg wait retry (lift q units mallocs) =
        .done (some q.unitCount)
          (lift (q.getSendUnit dest source buf buflen cb arg wait retry).2 units' mallocs') := by
  obtain ⟨mallocs', taken⟩ := getSendBuf_lift { q with unitCount := q.unitCount + 1 } units
    (mallocs + 1) buf buflen
  let ptr := q.unitCount
  let b := (SendQueue.getSendBuf { q with unitCount := ptr + 1 } buf buflen).1
  let refBits := (SendQueue.getSendBuf { q with unitCount := ptr + 1 } buf buflen).2.refBits
  let unit : Entry := ⟨dest, source, some b, cb, arg, wait, retry, 0⟩
  let fresh := Function.update units ptr unit
  let made := Function.update fresh ptr
    { fresh ptr with refCount := ((fresh ptr).refCount + 1) % 2 ^ refBits }
  refine ⟨made, mallocs', ?_, ?_⟩
  next =>
    obtain ⟨others, count⟩ := getSendBuf_units { q with unitCount := ptr + 1 } buf buflen
    intro u small
    by_cases same : u = ptr
    next =>
      subst same
      simp [made, fresh, unit, b, ptr, refBits, entryOf, SendQueue.getSendUnit, SendQueue.addSendUnitRef,
        SendQueue.setSendUnit]
    next =>
      have old : u < q.unitCount := by
        have below : u < ptr + 1 := Nat.lt_of_lt_of_eq small count
        omega
      have kept : ((q.getSendUnit dest source buf buflen cb arg wait retry).2).sendUnits u =
          q.sendUnits u := by
        simp only [SendQueue.getSendUnit, SendQueue.addSendUnitRef, SendQueue.setSendUnit]
        rw [Function.update_of_ne same, Function.update_of_ne same]
        exact congrFun others u
      rw [kept, ← lifts u old]
      simp only [made, fresh]
      rw [Function.update_of_ne same, Function.update_of_ne same]
  next =>
    have start : (lift q units mallocs).counted.update
        (fun c => { c with unitCount := (lift q units mallocs).cells.unitCount + 1 }) =
        lift { q with unitCount := q.unitCount + 1 } units (mallocs + 1) := rfl
    have granted : always (lift q units mallocs).cells.mallocs = true := rfl
    rw [getSendUnit, if_pos granted]
    dsimp only
    rw [start, taken, done_andThen]
    rfl

theorem freeSendUnit_lift {q : SendQueue} (counted : q.Counted) {units : Nat → Entry}
    (lifts : Lifts q units) (mallocs : Nat) (ptr : Option Nat) :
    match q.freeSendUnit ptr with
    | some q' => ∃ units', Lifts q' units' ∧
        freeSendUnit listOps ptr (lift q units mallocs) = .done () (lift q' units' mallocs)
    | none => freeSendUnit listOps ptr (lift q units mallocs) = .fault (lift q units mallocs) := by
  cases ptr with
  | none => exact ⟨units, lifts, rfl⟩
  | some ptr =>
    by_cases live : (lift q units mallocs).cells.UnitLive ptr
    next =>
      have allocated : ¬ (q.unitCount ≤ ptr ∨ .sendUnit ptr ∈ q.freed) :=
        not_or.mpr ⟨Nat.not_le_of_lt live.1, live.2⟩
      have listed : ptr ∈ q.sendUnitList := (counted.live ptr).mpr live
      have unit : (lift q units mallocs).cells.sendUnits ptr = entryOf (q.sendUnits ptr) :=
        lifts ptr live.1
      rw [SendQueue.freeSendUnit, if_neg allocated, freeSendUnit, if_pos live, unit]
      by_cases zero : (q.sendUnits ptr).refCount = 0
      next =>
        -- The record still counts the unit, so that it stays on its list.
        have needed := counted.needed ptr listed
        have record : delSendBuf listOps (entryOf (q.sendUnits ptr)).buf (lift q units mallocs) =
            .done () (lift (q.delSendBufRefCount (q.sendUnits ptr).buf) units mallocs) :=
          if_neg needed
        have unlinked (s : State Lists) (inside : ptr ∈ s.lists.sendUnitList) :
            listOps.delUnit ptr s = .done () { s with lists :=
              { s.lists with sendUnitList := s.lists.sendUnitList.erase ptr } } := if_pos inside
        rw [if_pos zero, if_pos (show (entryOf (q.sendUnits ptr)).refCount = 0 from zero), record,
          done_andThen, unlinked _ listed, done_andThen, SendQueue.delSendBuf, if_neg needed]
        exact ⟨units, lifts, rfl⟩
      next =>
        rw [if_neg zero, if_neg (show ¬ (entryOf (q.sendUnits ptr)).refCount = 0 from zero)]
        let fewer : Entry := { units ptr with refCount := (units ptr).refCount - 1 }
        refine ⟨Function.update units ptr fewer, ?_, rfl⟩
        intro u small
        simp only [SendQueue.delSendUnitRef, SendQueue.setSendUnit]
        by_cases same : u = ptr
        next =>
          subst same
          have here : units u = entryOf (q.sendUnits u) := lifts u live.1
          rw [Function.update_self, Function.update_self]
          simp only [fewer, here, entryOf]
        next =>
          rw [Function.update_of_ne same, Function.update_of_ne same]
          exact lifts u small
    next =>
      have gone : q.unitCount ≤ ptr ∨ .sendUnit ptr ∈ q.freed := by
        by_contra kept
        rw [not_or] at kept
        exact live ⟨Nat.lt_of_not_le kept.1, kept.2⟩
      rw [SendQueue.freeSendUnit, if_pos gone, freeSendUnit, if_neg live]

theorem exec_lift {q : SendQueue} (counted : q.Counted) {units : Nat → Entry} (lifts : Lifts q units)
    (mallocs : Nat) (op : Op) :
    match Socket.exec q op with
    | some q' => ∃ units' mallocs', Lifts q' units' ∧
        exec listOps always op (lift q units mallocs) = .done () (lift q' units' mallocs')
    | none => exec listOps always op (lift q units mallocs) = .fault (lift q units mallocs) := by
  cases op with
  | get dest source buf buflen cb arg wait retry =>
    obtain ⟨units', mallocs', lifts', run⟩ := getSendUnit_lift lifts mallocs dest source buf buflen cb
      arg wait retry
    refine ⟨units', mallocs', lifts', ?_⟩
    rw [exec, run, done_andThen]
  | free ptr =>
    have freed := freeSendUnit_lift counted lifts mallocs ptr
    rw [Socket.exec, exec]
    cases result : q.freeSendUnit ptr with
    | none =>
      rw [result] at freed
      exact freed
    | some q' =>
      rw [result] at freed
      obtain ⟨units', lifts', run⟩ := freed
      exact ⟨units', mallocs, lifts', run⟩
  | write addr byte => exact ⟨units, mallocs, lifts, rfl⟩

theorem run_lift (ops : List Op) {q : SendQueue} (counted : q.Counted)
    (room : q.unitCount + ops.countP Op.isGet < 2 ^ q.refBits) {units : Nat → Entry}
    (lifts : Lifts q units) (mallocs : Nat) :
    match Socket.run q ops with
    | some q' => ∃ units' mallocs', Lifts q' units' ∧
        run listOps always ops (lift q units mallocs) = .done () (lift q' units' mallocs')
    | none => ∃ s, run listOps always ops (lift q units mallocs) = .fault s := by
  induction ops generalizing q units mallocs with
  | nil => exact ⟨units, mallocs, lifts, rfl⟩
  | cons op ops ih =>
    have first := exec_lift counted lifts mallocs op
    rw [Socket.run, run]
    cases step : Socket.exec q op with
    | none =>
      rw [step] at first
      exact ⟨_, by rw [first]; rfl⟩
    | some q₁ =>
      rw [step] at first
      obtain ⟨units₁, mallocs₁, lifts₁, ran⟩ := first
      rw [ran, done_andThen, Option.bind_some]
      obtain ⟨bits, count⟩ := exec_unitCount op step
      rw [List.countP_cons] at room
      apply ih (exec_counted counted op _ step) _ lifts₁ mallocs₁
      · intro gets
        rw [if_pos gets] at room
        omega
      · rw [bits, count]
        omega

structure Stores (h : Heap) (q : SendQueue) : Prop where
  cells : ∃ units mallocs, Lifts q units ∧ h.cells = (lift q units mallocs).cells
  bufs : Ring h.lists .sendBufList (q.sendBufList.map .sendBuf)
  units : Ring h.lists .sendUnitList (q.sendUnitList.map .sendUnit)

theorem linked_queue_refines (refBits : Nat) (mem : Nat → UInt8) (ops : List Op)
    (fits : Fits refBits ops) :
    match Socket.run (listHeadInit refBits mem) ops with
    | some q => ∃ h, run linkOps always ops (Heap.initial refBits mem) = .done () h ∧ Stores h q
    | none => ∃ h, run linkOps always ops (Heap.initial refBits mem) = .fault h := by
  have matched := run_matches always ops (initial_represents refBits mem)
    (initial_settled refBits mem)
  have lifted := @run_lift ops (listHeadInit refBits mem) (listHeadInit_counted refBits mem)
    ((Nat.zero_add _).trans_lt fits) (Cells.initial refBits mem).sendUnits
    (fun _ small => absurd small (Nat.not_lt_zero _)) 0
  have start : lift (listHeadInit refBits mem) (Cells.initial refBits mem).sendUnits 0 =
    initialLists refBits mem := rfl
  rw [start] at lifted
  cases result : Socket.run (listHeadInit refBits mem) ops with
  | none =>
    rw [result] at lifted
    obtain ⟨s, ran⟩ := lifted
    rw [ran] at matched
    generalize run linkOps always ops (Heap.initial refBits mem) = outcome at matched
    cases matched with
    | fault related => exact ⟨_, rfl⟩
  | some q =>
    rw [result] at lifted
    obtain ⟨units, mallocs, lifts, ran⟩ := lifted
    rw [ran] at matched
    obtain ⟨h, run', same⟩ := matched.returned
    refine ⟨h, run', ?_⟩
    cases same with
    | intro hold => exact ⟨⟨units, mallocs, lifts, rfl⟩, hold.bufs, hold.units⟩

def thriceFreed : List Op :=
  [.get ⟨2, 6881, 0⟩ ⟨2, 6882, 0⟩ 8 2 0 0 5 3, .free (some 0), .free (some 0), .free (some 0)]

-- The third call uses the unit that the second has released.
theorem linked_queue_refines_thrice : Fits 31 thriceFreed ∧
    ∃ h, run linkOps always thriceFreed (Heap.initial 31 fun _ => 0) = .fault h :=
  ⟨by decide, linked_queue_refines 31 (fun _ => 0) thriceFreed (by decide)⟩

/-- The second call of `free_send_unit` for a unit that has no record. -/
def Starved (c : Cells) (op : Op) : Prop :=
  ∃ ptr, op = .free (some ptr) ∧ c.UnitLive ptr ∧ (c.sendUnits ptr).refCount = 0 ∧
    (c.sendUnits ptr).buf = none

-- With the lists as lists only the pointer that is not checked can be null.
theorem listOps_no_crash (b ptr : Nat) (q q' : State Lists) :
    delSendBuf listOps (some b) q ≠ .crash q' ∧ listOps.delUnit ptr q ≠ .crash q' := by
  simp only [delSendBuf, listOps]
  constructor
  next =>
    split
    next => split <;> simp
    next => simp
  next => split <;> simp

theorem freeSendUnit_crash_iff (q : State Lists) (ptr : Nat) :
    (∃ q', freeSendUnit listOps (some ptr) q = .crash q') ↔ Starved q.cells (.free (some ptr)) := by
  rw [freeSendUnit]
  by_cases live : q.cells.UnitLive ptr
  next =>
    rw [if_pos live]
    by_cases zero : (q.cells.sendUnits ptr).refCount = 0
    next =>
      rw [if_pos zero]
      cases record : (q.cells.sendUnits ptr).buf with
      | none => exact iff_of_true ⟨q, rfl⟩ ⟨ptr, rfl, live, zero, record⟩
      | some b =>
        refine iff_of_false ?_ ?_
        next =>
          rintro ⟨q', crashed⟩
          rcases andThen_eq_crash crashed with first | ⟨_, q₁, -, rest⟩
          next => exact (listOps_no_crash b ptr q q').1 first
          next =>
            rcases andThen_eq_crash rest with second | ⟨_, q₂, -, last⟩
            next => exact (listOps_no_crash b ptr q₁ q').2 second
            next => cases last
        next =>
          rintro ⟨ptr', same, -, -, none⟩
          cases same
          rw [record] at none
          cases none
    next =>
      rw [if_neg zero]
      refine iff_of_false (by simp) ?_
      rintro ⟨ptr', same, -, gone, -⟩
      cases same
      exact zero gone
  next =>
    rw [if_neg live]
    refine iff_of_false (by simp) ?_
    rintro ⟨ptr', same, alive, -⟩
    cases same
    exact live alive

theorem exec_crash_iff (malloc : Nat → Bool) (q : State Lists) (op : Op) :
    (∃ q', exec listOps malloc op q = .crash q') ↔ Starved q.cells op := by
  cases op with
  | get dest source buf buflen cb arg wait retry =>
    refine iff_of_false ?_ (by simp [Starved])
    rintro ⟨q', crashed⟩
    rw [exec, getSendUnit] at crashed
    dsimp only at crashed
    split at crashed
    next =>
      obtain ⟨b, q₁, taken, -⟩ := getSendBuf_keeps malloc buf buflen
        (q.counted.update fun c => { c with unitCount := q.cells.unitCount + 1 })
      rw [taken] at crashed
      cases crashed
    next => cases crashed
  | free ptr =>
    cases ptr with
    | none => exact iff_of_false (by simp [exec, freeSendUnit]) (by simp [Starved])
    | some ptr => exact freeSendUnit_crash_iff q ptr
  | write addr byte => exact iff_of_false (by simp [exec]) (by simp [Starved])

/-- Whatever memory is refused, the lists stay whole, and a step uses a null pointer if and only if
it is the second release of a unit that got no record. -/
theorem starved_unit_crashes_iff {malloc : Nat → Bool} {refBits : Nat} {mem : Nat → UInt8}
    {ops : List Op} {h : Heap}
    (ran : run linkOps malloc ops (Heap.initial refBits mem) = .done () h) (op : Op) :
    (∃ l, Links.Hold h.cells h.lists l) ∧
      ((∃ h', exec linkOps malloc op h = .crash h') ↔ Starved h.cells op) := by
  have matched := run_matches malloc ops (initial_represents refBits mem)
    (initial_settled refBits mem)
  rw [ran] at matched
  obtain ⟨q, ran', same⟩ := matched.returns
  have settled := run_settled malloc ops (initial_settled refBits mem) ran'
  have step := exec_matches malloc same settled op
  cases same with
  | intro hold =>
    refine ⟨⟨_, hold⟩, ?_⟩
    rw [step.crash_iff]
    exact exec_crash_iff malloc _ op

-- There is memory for the unit and none for its record.
def onlyUnit (calls : Nat) : Bool := calls ≠ 1

def starvedOps : List Op := [.get ⟨2, 6881, 0⟩ ⟨2, 6882, 0⟩ 8 2 0 0 5 3, .free (some 0)]

theorem starved_unit_crashes : ∃ h,
    run linkOps onlyUnit starvedOps (Heap.initial 31 fun _ => 0) = .done () h ∧
      ∃ h', exec linkOps onlyUnit (.free (some 0)) h = .crash h' := by
  have ran : run linkOps onlyUnit starvedOps (Heap.initial 31 fun _ => 0) = .done () _ := rfl
  exact ⟨_, ran, (starved_unit_crashes_iff ran _).2.mpr
    ⟨0, rfl, ⟨Nat.zero_lt_one, List.not_mem_nil⟩, rfl, rfl⟩⟩

end BTServer.Socket.Linked
