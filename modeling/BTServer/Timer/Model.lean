import BTServer.Shared.LinkedList

set_option autoImplicit false

namespace BTServer.Timer

open LinkedList

inductive Ptr where
  | null
  | poison1
  | poison2
  | timerList
  | timer (handle : Nat)
  deriving DecidableEq

def Ptr.Valid : Ptr → Bool
  | .timerList => true
  | .timer _ => true
  | _ => false

inductive BtTimerType where
  | btTimerSingle
  | btTimerRepeat
  deriving DecidableEq

structure BtTimer where
  timerId : UInt32
  callback : Nat
  data : Nat
  type : BtTimerType
  interval : UInt32
  elapse : UInt32
  deriving DecidableEq

structure Invocation where
  handle : Nat
  callback : Nat
  timerId : UInt32
  data : Nat
  deriving DecidableEq

-- The logs are cumulative: every callback run, every handle whose `elapse` was incremented and
-- every `list_del` with the links it found.
structure BtTimerList where
  links : Links Ptr
  timers : Nat → BtTimer
  num : Nat
  invoked : List Invocation
  visited : List Nat
  deletions : List (Links Ptr × Ptr)
  freed : List Nat

inductive Outcome where
  | returned (s : BtTimerList)
  | fault (s : BtTimerList)
  | running (s : BtTimerList)

def Outcome.state : Outcome → BtTimerList
  | .returned s => s
  | .fault s => s
  | .running s => s

def Outcome.andThen (o : Outcome) (f : BtTimerList → Outcome) : Outcome :=
  match o with
  | .returned s => f s
  | .fault s => .fault s
  | .running s => .running s

namespace BtTimerList

def setTimer (s : BtTimerList) (handle : Nat) (t : BtTimer) : BtTimerList :=
  { s with timers := Function.update s.timers handle t }

/-- `list_del` writes through both neighbours, so one that is no list head faults. -/
def listDel (s : BtTimerList) (entry : Ptr) : Outcome :=
  let logged := { s with deletions := s.deletions ++ [(s.links, entry)] }
  if (s.links entry).next.Valid && (s.links entry).prev.Valid then
    .returned { logged with links := LinkedList.listDel .poison1 .poison2 s.links entry }
  else .fault logged

def listAddTail (s : BtTimerList) (new head : Ptr) : BtTimerList :=
  { s with links := LinkedList.listAddTail s.links new head }

-- `list_for_each_entry` from `vec` on. Running past the last timer leaves `vec` on the list head.
def getPositionFrom (s : BtTimerList) (interval : Int32) : Nat → Ptr → Ptr
  | 0, vec => vec
  | fuel + 1, vec =>
    match vec with
    | .timer handle =>
      if (s.timers handle).interval > interval.toUInt32 then vec
      else getPositionFrom s interval fuel (s.links vec).next
    | other => other

/-- The list holds at most the `num` timers added so far. -/
def getPosition (s : BtTimerList) (interval : Int32) : Ptr :=
  s.getPositionFrom interval (s.num + 1) (s.links .timerList).next

def btTimerInit : BtTimerList :=
  { links := initListHead (fun _ => ⟨.null, .null⟩) .timerList
    timers := fun _ => ⟨0, 0, 0, .btTimerSingle, 0, 0⟩
    num := 0
    invoked := []
    visited := []
    deletions := []
    freed := [] }

/-- `vec->elapse ++` -/
def increment (s : BtTimerList) (handle : Nat) : BtTimerList :=
  let vec := s.timers handle
  { s.setTimer handle { vec with elapse := vec.elapse + 1 } with
    visited := s.visited ++ [handle] }

/-- `vec->elapse = 0; vec->callback(vec->timer_id, vec->data)` -/
def expire (s : BtTimerList) (handle : Nat) : BtTimerList :=
  let vec := s.timers handle
  { s.setTimer handle { vec with elapse := 0 } with
    invoked := s.invoked ++ [⟨handle, vec.callback, vec.timerId, vec.data⟩] }

def tickBody (s : BtTimerList) (handle : Nat) : Outcome :=
  let s := s.increment handle
  let vec := s.timers handle
  if vec.elapse ≥ vec.interval then
    ((s.expire handle).listDel (.timer handle)).andThen fun s =>
      if vec.type ≠ .btTimerSingle then
        .returned (s.listAddTail (.timer handle) (s.getPosition vec.interval.toInt32))
      else .returned s
  else .returned s

/-- `list_for_each_entry_safe`: `n` is saved before the body runs. -/
def tickLoop : Nat → BtTimerList → Ptr → Ptr → Outcome
  | _, s, .timerList, _ => .returned s
  | 0, s, _, _ => .running s
  | fuel + 1, s, .timer handle, n =>
    (s.tickBody handle).andThen fun s => tickLoop fuel s n (s.links n).next
  | _ + 1, s, _, _ => .fault s

def btTimerFunc (fuel : Nat) (s : BtTimerList) : Outcome :=
  let pos := (s.links .timerList).next
  tickLoop fuel s pos (s.links pos).next

def btTimerAdd (s : BtTimerList) (func data : Nat) (interval : UInt32) (type : BtTimerType) :
    BtTimerList :=
  let handle := s.num
  let ptr : BtTimer :=
    { timerId := UInt32.ofNat s.num, callback := func, data, type, elapse := 0, interval }
  let s := { s.setTimer handle ptr with
    links := Function.update s.links (.timer handle) ⟨.null, .null⟩
    num := s.num + 1 }
  s.listAddTail (.timer handle) (s.getPosition interval.toInt32)

def btTimerDel (s : BtTimerList) (handle : Nat) : Outcome :=
  (s.listDel (.timer handle)).andThen fun s => .returned { s with freed := s.freed ++ [handle] }

def btTimerUpdate (s : BtTimerList) (handle : Nat) : Outcome :=
  (s.listDel (.timer handle)).andThen fun s =>
    let ptr := { s.timers handle with elapse := 0 }
    let s := s.setTimer handle ptr
    .returned (s.listAddTail (.timer handle) (s.getPosition ptr.interval.toInt32))

def finitLoop : Nat → BtTimerList → Ptr → Ptr → Outcome
  | _, s, .timerList, _ => .returned s
  | 0, s, _, _ => .running s
  | fuel + 1, s, .timer handle, n =>
    (s.btTimerDel handle).andThen fun s => finitLoop fuel s n (s.links n).next
  | _ + 1, s, _, _ => .fault s

/-- The final `memset` leaves the list head with null pointers. -/
def btTimerFinit (fuel : Nat) (s : BtTimerList) : Outcome :=
  let pos := (s.links .timerList).next
  (finitLoop fuel s pos (s.links pos).next).andThen fun s =>
    .returned { s with links := Function.update s.links .timerList ⟨.null, .null⟩, num := 0 }

end BtTimerList

inductive Op where
  | add (func data : Nat) (interval : UInt32) (type : BtTimerType)
  | update (handle : Nat)
  | del (handle : Nat)
  | tick

open BtTimerList

def exec (fuel : Nat) (s : BtTimerList) : Op → Outcome
  | .add func data interval type => .returned (s.btTimerAdd func data interval type)
  | .update handle => s.btTimerUpdate handle
  | .del handle => s.btTimerDel handle
  | .tick => s.btTimerFunc fuel

def run (fuel : Nat) : BtTimerList → List Op → Outcome
  | s, [] => .returned s
  | s, op :: ops => (exec fuel s op).andThen fun s => run fuel s ops

end BTServer.Timer
