import BTServer.Timer.Memory

set_option autoImplicit false

-- The timer list with callbacks that call `bt_timer_add`, `bt_timer_update` and `bt_timer_del`.
namespace BTServer.Timer.Calling

open LinkedList BtTimerList

inductive Call where
  | add (func data : Nat) (interval : UInt32) (type : BtTimerType)
  | update (handle : Nat)
  | del (handle : Nat)
  deriving DecidableEq

/-- The calls of the callback that is run last, by the log of all that have been run. -/
abbrev Callbacks := List Invocation → List Call

def call (s : BtTimerList) : Call → Outcome
  | .add func data interval type => .returned (s.btTimerAdd func data interval type)
  | .update handle => s.btTimerUpdate handle
  | .del handle => s.btTimerDel handle

def calls (s : BtTimerList) : List Call → Outcome
  | [] => .returned s
  | c :: cs => (call s c).andThen fun s => calls s cs

section Tick

variable (callbacks : Callbacks)

/-- The type and the interval are read from the block again when the callback has returned. -/
def tickBody (s : BtTimerList) (handle : Nat) : Outcome :=
  let s := s.increment handle
  let vec := s.timers handle
  if vec.elapse ≥ vec.interval then
    let s := s.expire handle
    (calls s (callbacks s.invoked)).andThen fun s =>
      (s.listDel (.timer handle)).andThen fun s =>
        let vec := s.timers handle
        if vec.type ≠ .btTimerSingle then
          .returned (s.listAddTail (.timer handle) (s.getPosition vec.interval.toInt32))
        else .returned s
  else .returned s

def released (s : BtTimerList) : Ptr → Bool
  | .timer handle => handle ∈ s.freed
  | _ => false

-- The saved pointer `n` is followed behind the body, and a callback may have freed its block.
def tickLoop : Nat → BtTimerList → Ptr → Ptr → Outcome
  | _, s, .timerList, _ => .returned s
  | 0, s, _, _ => .running s
  | fuel + 1, s, .timer handle, n =>
    (tickBody callbacks s handle).andThen fun s =>
      if released s n then .fault s else tickLoop fuel s n (s.links n).next
  | _ + 1, s, _, _ => .fault s

def btTimerFunc (fuel : Nat) (s : BtTimerList) : Outcome :=
  let pos := (s.links .timerList).next
  tickLoop callbacks fuel s pos (s.links pos).next

def exec (fuel : Nat) (s : BtTimerList) : Op → Outcome
  | .add func data interval type => call s (.add func data interval type)
  | .update handle => call s (.update handle)
  | .del handle => call s (.del handle)
  | .tick => btTimerFunc callbacks fuel s

def run (fuel : Nat) : BtTimerList → List Op → Outcome
  | s, [] => .returned s
  | s, op :: ops => (exec callbacks fuel s op).andThen fun s => run fuel s ops

end Tick

-- The same without pointers: the timers in their order.
structure Line where
  listed : List Listed
  num : Nat
  invoked : List Invocation
  freed : List Nat

inductive LineOutcome where
  | returned (l : Line)
  | fault
  | running (l : Line)

def LineOutcome.andThen (o : LineOutcome) (f : Line → LineOutcome) : LineOutcome :=
  match o with
  | .returned l => f l
  | .fault => .fault
  | .running l => .running l

namespace Line

def handles (l : Line) : List Nat := l.listed.map Listed.handle

def find (l : Line) (handle : Nat) : Option Listed := l.listed.find? (·.handle = handle)

def without (l : Line) (handle : Nat) : List Listed := l.listed.filter (·.handle ≠ handle)

def set (l : Line) (t : Listed) : Line :=
  { l with listed := l.listed.map fun u => if u.handle = t.handle then t else u }

def expire (l : Line) (t : Listed) : Line :=
  ⟨(l.set t.reset).listed, l.num, l.invoked ++ [t.invocation], l.freed⟩

def next (l : Line) (handle : Nat) : Option Nat :=
  (l.listed.dropWhile (·.handle ≠ handle)).tail.head?.map Listed.handle

def call (l : Line) : Call → LineOutcome
  | .add func data interval type => .returned { l with
      listed := insertTimer (newTimer l.num func data interval type) l.listed
      num := l.num + 1 }
  | .update handle =>
    match l.find handle with
    | some t => .returned { l with listed := insertTimer t.reset (l.without handle) }
    | none => .fault
  | .del handle =>
    match l.find handle with
    | some _ => .returned { l with listed := l.without handle, freed := l.freed ++ [handle] }
    | none => .fault

def calls (l : Line) : List Call → LineOutcome
  | [] => .returned l
  | c :: cs => (l.call c).andThen fun l => l.calls cs

variable (callbacks : Callbacks)

/-- A callback must leave its own timer on the list. -/
def round (l : Line) (handle : Nat) : LineOutcome :=
  match l.find handle with
  | none => .fault
  | some t =>
    if t.Due then
      ((l.expire t).calls (callbacks (l.invoked ++ [t.invocation]))).andThen fun l =>
        match l.find handle with
        | none => .fault
        | some t => .returned { l with
            listed := if t.type = .btTimerSingle then l.without handle
              else insertTimer t (l.without handle) }
    else .returned (l.set t.counted)

/-- The timer that follows must be on the list when the callback has returned. -/
def loop : Nat → Line → Option Nat → LineOutcome
  | _, l, none => .returned l
  | 0, l, some _ => .running l
  | fuel + 1, l, some handle =>
    let n := l.next handle
    (l.round callbacks handle).andThen fun l =>
      if n.all (· ∈ l.handles) then loop fuel l n else .fault

def tick (fuel : Nat) (l : Line) : LineOutcome :=
  l.loop callbacks fuel (l.listed.head?.map Listed.handle)

def exec (fuel : Nat) (l : Line) : Op → LineOutcome
  | .add func data interval type => l.call (.add func data interval type)
  | .update handle => l.call (.update handle)
  | .del handle => l.call (.del handle)
  | .tick => l.tick callbacks fuel

def run (fuel : Nat) : Line → List Op → LineOutcome
  | l, [] => .returned l
  | l, op :: ops => (l.exec callbacks fuel op).andThen fun l => run fuel l ops

end Line

structure Holds (s : BtTimerList) (l : Line) : Prop where
  rep : Represents s l.listed
  num : s.num = l.num
  invoked : s.invoked = l.invoked
  freed : s.freed = l.freed
  released : ∀ handle ∈ l.freed, handle < l.num ∧ handle ∉ l.handles

inductive Matches : Outcome → LineOutcome → Prop
  | returned {s : BtTimerList} {l : Line} (holds : Holds s l) : Matches (.returned s) (.returned l)
  | fault {s : BtTimerList} : Matches (.fault s) .fault
  | running {s : BtTimerList} {l : Line} (holds : Holds s l) : Matches (.running s) (.running l)

theorem Matches.andThen {o : Outcome} {o' : LineOutcome} {f : BtTimerList → Outcome}
    {f' : Line → LineOutcome} (first : Matches o o')
    (next : ∀ s l, o' = .returned l → Holds s l → Matches (f s) (f' l)) :
    Matches (o.andThen f) (o'.andThen f') := by
  cases first with
  | returned holds => exact next _ _ rfl holds
  | fault => exact .fault
  | running holds => exact .running holds

theorem Matches.holds {o : Outcome} {l : Line} (first : Matches o (.returned l)) :
    ∃ s, Holds s l := by
  cases first with
  | returned holds => exact ⟨_, holds⟩

namespace Line

section Split

variable {l : Line} {front back : List Listed} {t : Listed} (nodup : l.handles.Nodup)
  (split : l.listed = front ++ t :: back)

include nodup split

theorem apart_of_split (u : Listed) (inside : u ∈ front ++ back) : u.handle ≠ t.handle := by
  rw [handles, split] at nodup
  exact handles_apart nodup u inside

theorem find_split : l.find t.handle = some t := by
  have others : front.find? (·.handle = t.handle) = none := by
    rw [List.find?_eq_none]
    intro u inside
    simpa using apart_of_split nodup split u (by simp [inside])
  rw [find, split, List.find?_append, others, Option.none_or, List.find?_cons_of_pos (by simp)]

theorem without_split : l.without t.handle = front ++ back := by
  have kept (us : List Listed) (apart : ∀ u ∈ us, u.handle ≠ t.handle) :
      us.filter (·.handle ≠ t.handle) = us := by
    rw [List.filter_eq_self]
    intro u inside
    simpa using apart u inside
  rw [without, split, List.filter_append, List.filter_cons_of_neg (by simp),
    kept front fun u inside => apart_of_split nodup split u (by simp [inside]),
    kept back fun u inside => apart_of_split nodup split u (by simp [inside])]

theorem set_split {t' : Listed} (same : t'.handle = t.handle) :
    (l.set t').listed = front ++ t' :: back := by
  have kept (us : List Listed) (apart : ∀ u ∈ us, u.handle ≠ t.handle) :
      us.map (fun u => if u.handle = t'.handle then t' else u) = us := by
    rw [same]
    refine (List.map_congr_left fun u inside => if_neg (apart u inside)).trans (List.map_id' us)
  simp only [set, split, List.map_append, List.map_cons]
  rw [kept front fun u inside => apart_of_split nodup split u (by simp [inside]),
    kept back fun u inside => apart_of_split nodup split u (by simp [inside]), if_pos same.symm]

theorem next_split : l.next t.handle = back.head?.map Listed.handle := by
  have passed : ∀ u ∈ front, decide (u.handle ≠ t.handle) = true := by
    intro u inside
    simpa using apart_of_split nodup split u (by simp [inside])
  rw [next, split, List.dropWhile_append_of_pos passed, List.dropWhile_cons_of_neg (by simp)]
  rfl

end Split

theorem find_absent {l : Line} {handle : Nat} (absent : handle ∉ l.handles) :
    l.find handle = none := by
  rw [find, List.find?_eq_none]
  intro t inside
  simp only [decide_eq_true_eq]
  intro same
  exact absent (same ▸ List.mem_map_of_mem inside)

end Line

end BTServer.Timer.Calling
