import Mathlib.Data.List.Perm.Subperm
import BTServer.Timer.Schedule

set_option autoImplicit false

namespace BTServer.Timer

open LinkedList BtTimerList

def Listed.ptr (t : Listed) : Ptr := .timer t.handle

def cursor (ts : List Listed) : Ptr := (ts.map Listed.ptr).headD .timerList

def LinkedAt (deletion : Links Ptr × Ptr) : Prop :=
  ∃ nodes, Ring deletion.1 .timerList nodes ∧ deletion.2 ∈ nodes

/-- The linked structure in memory is the list `ts`, and no other timer can be unlinked. -/
structure Represents (s : BtTimerList) (ts : List Listed) : Prop where
  ring : Ring s.links .timerList (ts.map Listed.ptr)
  fields : ∀ t ∈ ts, s.timers t.handle = t.timer
  bounded : ∀ t ∈ ts, t.handle < s.num
  unlinked : ∀ handle, Ptr.timer handle ∉ ts.map Listed.ptr →
    (s.links (.timer handle)).next.Valid = false
  deletions : ∀ deletion ∈ s.deletions, LinkedAt deletion

theorem Represents.nodup {s : BtTimerList} {ts : List Listed} (rep : Represents s ts) :
    (ts.map Listed.handle).Nodup := by
  have pointers := (List.nodup_cons.mp rep.ring.nodup).2
  rw [show ts.map Listed.ptr = (ts.map Listed.handle).map Ptr.timer by simp [Listed.ptr]] at pointers
  exact List.Nodup.of_map _ pointers

theorem Represents.frame {s s' : BtTimerList} {ts : List Listed} (rep : Represents s ts)
    (links : s'.links = s.links) (timers : s'.timers = s.timers) (num : s'.num = s.num)
    (deletions : s'.deletions = s.deletions) : Represents s' ts :=
  ⟨links ▸ rep.ring, timers ▸ rep.fields, num ▸ rep.bounded, links ▸ rep.unlinked,
    deletions ▸ rep.deletions⟩

theorem mem_pointers (ts : List Listed) (handle : Nat) :
    Ptr.timer handle ∈ ts.map Listed.ptr ↔ handle ∈ ts.map Listed.handle := by
  simp [Listed.ptr]

theorem Represents.length_le {s : BtTimerList} {ts : List Listed} (rep : Represents s ts) :
    ts.length ≤ s.num := by
  have inside : (ts.map Listed.handle) ⊆ List.range s.num := by
    intro handle member
    obtain ⟨t, inside, rfl⟩ := List.mem_map.mp member
    exact List.mem_range.mpr (rep.bounded t inside)
  have := (rep.nodup.subperm inside).length_le
  simpa using this

theorem pointers_valid (ts : List Listed) (p : Ptr)
    (member : p ∈ Ptr.timerList :: ts.map Listed.ptr) : p.Valid = true := by
  rcases List.mem_cons.mp member with rfl | member
  · rfl
  · obtain ⟨t, -, rfl⟩ := List.mem_map.mp member
    rfl

theorem handles_apart {front back : List Listed} {t : Listed}
    (nodup : ((front ++ t :: back).map Listed.handle).Nodup) (u : Listed)
    (member : u ∈ front ++ back) : u.handle ≠ t.handle := by
  rw [List.map_append, List.map_cons, List.nodup_middle, List.nodup_cons] at nodup
  intro same
  exact nodup.1 (by rw [← same, ← List.map_append]; exact List.mem_map_of_mem member)

theorem handle_absent {front back : List Listed} {t : Listed}
    (nodup : ((front ++ t :: back).map Listed.handle).Nodup) :
    t.handle ∉ (front ++ back).map Listed.handle := by
  intro member
  obtain ⟨u, inside, same⟩ := List.mem_map.mp member
  exact handles_apart nodup u inside same

theorem getPositionFrom_correct (s : BtTimerList) (interval : Int32) (front back : List Listed)
    (fuel : Nat) (ring : Ring s.links .timerList ((front ++ back).map Listed.ptr))
    (fields : ∀ t ∈ back, s.timers t.handle = t.timer) (enough : back.length < fuel) :
    s.getPositionFrom interval fuel (cursor back) =
      cursor (back.dropWhile fun t => t.interval ≤ interval.toUInt32) := by
  induction back generalizing front fuel with
  | nil =>
    cases fuel with
    | zero => rfl
    | succ fuel => rfl
  | cons t back ih =>
    obtain ⟨fuel, rfl⟩ : ∃ n, fuel = n + 1 := ⟨fuel - 1, by simp at enough; omega⟩
    have next : (s.links t.ptr).next = cursor back :=
      Ring.next_of_split (front.map Listed.ptr) (by simpa using ring)
    have here : cursor (t :: back) = .timer t.handle := rfl
    have stored : (s.timers t.handle).interval = t.interval := by
      rw [fields t (by simp)]
      rfl
    rw [here]
    simp only [getPositionFrom, stored]
    by_cases larger : t.interval > interval.toUInt32
    · have stop : ¬ t.interval ≤ interval.toUInt32 := UInt32.not_le.mpr larger
      rw [if_pos larger, List.dropWhile_cons_of_neg (by simpa using stop), here]
    · have pass : t.interval ≤ interval.toUInt32 := UInt32.not_lt.mp larger
      rw [if_neg larger, List.dropWhile_cons_of_pos (by simpa using pass)]
      change s.getPositionFrom interval fuel (s.links t.ptr).next = _
      rw [next]
      exact ih (front ++ [t]) fuel (by simpa using ring)
        (fun u member => fields u (by simp [member])) (by simpa using enough)

theorem getPosition_correct {s : BtTimerList} {ts : List Listed} (rep : Represents s ts)
    (t : Listed) :
    s.getPosition t.timer.interval.toInt32 = cursor (ts.dropWhile (notAfter t)) := by
  have start : (s.links .timerList).next = cursor ts := rep.ring.next_head
  rw [getPosition, start]
  have found := getPositionFrom_correct s t.timer.interval.toInt32 [] ts (s.num + 1)
    (by simpa using rep.ring) rep.fields (by have := rep.length_le; omega)
  rw [found]
  simp only [UInt32.toUInt32_toInt32]
  rfl

theorem Represents.listAddTail {s : BtTimerList} {ts : List Listed} (rep : Represents s ts)
    (t : Listed) (stored : s.timers t.handle = t.timer) (bounded : t.handle < s.num)
    (fresh : t.handle ∉ ts.map Listed.handle) :
    Represents (s.listAddTail t.ptr (s.getPosition t.timer.interval.toInt32))
      (insertTimer t ts) := by
  rw [getPosition_correct rep t]
  have split : ts.map Listed.ptr = (ts.takeWhile (notAfter t)).map Listed.ptr ++
      (ts.dropWhile (notAfter t)).map Listed.ptr := by
    rw [← List.map_append, List.takeWhile_append_dropWhile]
  have ring := rep.ring
  rw [split] at ring
  have outside : t.ptr ∉ Ptr.timerList :: ((ts.takeWhile (notAfter t)).map Listed.ptr ++
      (ts.dropWhile (notAfter t)).map Listed.ptr) := by
    rw [← split]
    simpa [Listed.ptr] using fresh
  refine ⟨?_, ?_, ?_, ?_, rep.deletions⟩
  · have added := ring.listAddTail outside
    rw [show (insertTimer t ts).map Listed.ptr = (ts.takeWhile (notAfter t)).map Listed.ptr ++
      t.ptr :: (ts.dropWhile (notAfter t)).map Listed.ptr by simp [insertTimer]]
    exact added
  · intro u member
    rcases (mem_insertTimer t u ts).mp member with rfl | member
    · exact stored
    · exact rep.fields u member
  · intro u member
    rcases (mem_insertTimer t u ts).mp member with rfl | member
    · exact bounded
    · exact rep.bounded u member
  · intro handle absent
    have apart : Ptr.timer handle ≠ t.ptr ∧ Ptr.timer handle ∉ ts.map Listed.ptr := by
      rw [((insertTimer_perm t ts).map Listed.ptr).mem_iff, List.map_cons, List.mem_cons,
        not_or] at absent
      exact absent
    have before : (s.links (cursor (ts.dropWhile (notAfter t)))).prev ≠ Ptr.timer handle := by
      intro same
      have last := ring.prev_of_split _ _
      change (s.links (cursor (ts.dropWhile (notAfter t)))).prev = _ at last
      have inside := (sides_mem Ptr.timerList ((ts.takeWhile (notAfter t)).map Listed.ptr)
        ((ts.dropWhile (notAfter t)).map Listed.ptr)).1
      rw [← last, same, ← split] at inside
      simp only [List.mem_cons, reduceCtorEq, false_or] at inside
      exact apart.2 inside
    simp only [BtTimerList.listAddTail]
    rw [listAddTail_next, if_neg before.symm, if_neg apart.1]
    exact rep.unlinked handle apart.2

theorem Represents.setTimer {s : BtTimerList} {front back : List Listed} {t : Listed}
    (rep : Represents s (front ++ t :: back)) (timer : BtTimer) :
    Represents (s.setTimer t.handle timer) (front ++ { t with timer := timer } :: back) := by
  have pointers : (front ++ { t with timer := timer } :: back).map Listed.ptr =
      (front ++ t :: back).map Listed.ptr := by
    simp [Listed.ptr]
  refine ⟨by rw [pointers]; exact rep.ring, ?_, ?_, ?_, rep.deletions⟩
  · intro u member
    simp only [List.mem_append, List.mem_cons] at member
    have other (inside : u ∈ front ++ back) :
        (s.setTimer t.handle timer).timers u.handle = u.timer := by
      have apart := handles_apart rep.nodup u inside
      simp only [BtTimerList.setTimer, Function.update_of_ne apart]
      exact rep.fields u (by
        simp only [List.mem_append, List.mem_cons] at inside ⊢
        tauto)
    rcases member with inside | rfl | inside
    · exact other (by simp [inside])
    · simp [BtTimerList.setTimer]
    · exact other (by simp [inside])
  · intro u member
    simp only [List.mem_append, List.mem_cons] at member
    rcases member with inside | rfl | inside
    · exact rep.bounded u (by simp [inside])
    · exact rep.bounded t (by simp)
    · exact rep.bounded u (by simp [inside])
  · rw [pointers]
    exact rep.unlinked

theorem Represents.setTimer_absent {s : BtTimerList} {ts : List Listed} {handle : Nat}
    (rep : Represents s ts) (absent : handle ∉ ts.map Listed.handle) (timer : BtTimer) :
    Represents (s.setTimer handle timer) ts := by
  refine ⟨rep.ring, fun t member => ?_, rep.bounded, rep.unlinked, rep.deletions⟩
  have apart : t.handle ≠ handle := fun same => absent (same ▸ List.mem_map_of_mem member)
  simp only [BtTimerList.setTimer, Function.update_of_ne apart]
  exact rep.fields t member

theorem Represents.listDel {s : BtTimerList} {front back : List Listed} {t : Listed}
    (rep : Represents s (front ++ t :: back)) :
    ∃ s', s.listDel t.ptr = .returned s' ∧ Represents s' (front ++ back) ∧
      s'.timers = s.timers ∧ s'.num = s.num ∧ s'.visited = s.visited ∧ s'.invoked = s.invoked ∧
      s'.freed = s.freed := by
  have ring : Ring s.links .timerList (front.map Listed.ptr ++ t.ptr :: back.map Listed.ptr) := by
    simpa using rep.ring
  have next : (s.links t.ptr).next = cursor back := ring.next_of_split _
  have prev : (s.links t.ptr).prev =
      (Ptr.timerList :: front.map Listed.ptr).getLast (by simp) := by
    simpa using ring.prev_of_split (front.map Listed.ptr) (t.ptr :: back.map Listed.ptr)
  obtain ⟨lastIn, firstIn⟩ := sides_mem Ptr.timerList (front.map Listed.ptr)
    (back.map Listed.ptr)
  rw [← List.map_append] at lastIn firstIn
  have good : ((s.links t.ptr).next.Valid && (s.links t.ptr).prev.Valid) = true := by
    rw [next, prev, pointers_valid _ _ lastIn, Bool.and_true]
    exact pointers_valid _ _ firstIn
  refine ⟨{ s with
    links := LinkedList.listDel .poison1 .poison2 s.links t.ptr
    deletions := s.deletions ++ [(s.links, t.ptr)] },
    by simp only [BtTimerList.listDel, good, if_true], ⟨?_, ?_, ?_, ?_, ?_⟩,
    rfl, rfl, rfl, rfl, rfl⟩
  · simpa using ring.listDel .poison1 .poison2
  · intro u member
    exact rep.fields u (by
      simp only [List.mem_append, List.mem_cons] at member ⊢
      tauto)
  · intro u member
    exact rep.bounded u (by
      simp only [List.mem_append, List.mem_cons] at member ⊢
      tauto)
  · intro handle absent
    rw [listDel_next]
    by_cases same : Ptr.timer handle = t.ptr
    · rw [if_pos same]
      rfl
    · have before : Ptr.timer handle ≠ (s.links t.ptr).prev := by
        intro equal
        rw [prev] at equal
        rw [← equal] at lastIn
        simp only [List.mem_cons, reduceCtorEq, false_or] at lastIn
        exact absent lastIn
      rw [if_neg same, if_neg before]
      refine rep.unlinked handle ?_
      simp only [List.map_append, List.map_cons, List.mem_append, List.mem_cons] at absent ⊢
      tauto
  · intro deletion member
    rcases List.mem_append.mp member with member | member
    · exact rep.deletions deletion member
    · obtain rfl := List.mem_singleton.mp member
      exact ⟨_, rep.ring, by simp⟩

theorem Represents.listDel_fault {s : BtTimerList} {ts : List Listed} (rep : Represents s ts)
    (handle : Nat) (absent : handle ∉ ts.map Listed.handle) :
    s.listDel (.timer handle) =
      .fault { s with deletions := s.deletions ++ [(s.links, .timer handle)] } := by
  have bad := rep.unlinked handle (by rwa [mem_pointers])
  simp [BtTimerList.listDel, bad]

theorem insertTimer_behind (t : Listed) (front back : List Listed)
    (passed : ∀ u ∈ front, u.interval ≤ t.interval) :
    insertTimer t (front ++ back) = front ++ insertTimer t back := by
  have all : ∀ u ∈ front, notAfter t u = true := by
    intro u member
    simpa [notAfter] using passed u member
  simp only [insertTimer, List.takeWhile_append_of_pos all, List.dropWhile_append_of_pos all,
    List.append_assoc]

structure Agrees (start s : BtTimerList) (w : Sweep) : Prop where
  rep : Represents s w.all
  visited : s.visited = start.visited ++ w.visited
  invoked : s.invoked = start.invoked ++ w.invoked
  num : s.num = start.num
  freed : s.freed = start.freed

theorem Represents.increment {s : BtTimerList} {front rest : List Listed} {t : Listed}
    (rep : Represents s (front ++ t :: rest)) :
    Represents (s.increment t.handle) (front ++ t.counted :: rest) := by
  have stored : s.timers t.handle = t.timer := rep.fields t (by simp)
  have set := rep.setTimer t.counted.timer
  exact set.frame (by simp [BtTimerList.increment, BtTimerList.setTimer])
    (by simp only [BtTimerList.increment, stored]; rfl) rfl rfl

theorem Represents.expire {s : BtTimerList} {front rest : List Listed} {t : Listed}
    (rep : Represents s (front ++ t.counted :: rest)) :
    Represents (s.expire t.handle) (front ++ t.reset :: rest) := by
  have stored : s.timers t.handle = t.counted.timer := rep.fields t.counted (by simp)
  have set := rep.setTimer t.reset.timer
  exact set.frame (by simp [BtTimerList.expire, BtTimerList.setTimer])
    (by simp only [BtTimerList.expire, stored]; rfl) rfl rfl

theorem tickBody_step {start s : BtTimerList} {w : Sweep} (agrees : Agrees start s w)
    (ordered : Ordered w.all) (t : Listed) (rest : List Listed) (next : w.todo = t :: rest) :
    ∃ s', s.tickBody t.handle = .returned s' ∧ Agrees start s' w.step := by
  have rep := agrees.rep
  simp only [Sweep.all, next] at rep ordered
  have passed : ∀ u ∈ w.done, u.interval ≤ t.reset.interval := fun u member =>
    (List.pairwise_append.mp ordered.sorted).2.2 u member t (by simp)
  have counted := rep.increment
  have now : (s.increment t.handle).timers t.handle = t.counted.timer :=
    counted.fields t.counted (by simp)
  have expired := counted.expire
  have visited : (s.increment t.handle).visited = start.visited ++ (w.visited ++ [t.handle]) := by
    simp [increment, agrees.visited]
  have invoked : ((s.increment t.handle).expire t.handle).invoked =
      start.invoked ++ (w.invoked ++ [t.invocation]) := by
    rw [← List.append_assoc, ← agrees.invoked]
    simp only [expire, now]
    rfl
  obtain ⟨deleted, deletion, unlinked, timers, num, seen, called, freed⟩ := expired.listDel
  have fires (due : t.Due) : s.tickBody t.handle =
      if t.type ≠ .btTimerSingle then
        .returned (deleted.listAddTail t.ptr (deleted.getPosition t.reset.timer.interval.toInt32))
      else .returned deleted := by
    have expires : t.counted.timer.elapse ≥ t.counted.timer.interval := due
    simp only [tickBody, now, if_pos expires]
    change Outcome.andThen (BtTimerList.listDel _ t.reset.ptr) _ = _
    rw [deletion]
    rfl
  have fired (s' : BtTimerList) (w' : Sweep) (rep : Represents s' w'.all)
      (frame : s'.num = deleted.num ∧ s'.visited = deleted.visited ∧
        s'.invoked = deleted.invoked ∧ s'.freed = deleted.freed)
      (saw : w'.visited = w.visited ++ [t.handle])
      (ran : w'.invoked = w.invoked ++ [t.invocation]) : Agrees start s' w' := by
    obtain ⟨sameNum, sameVisited, sameInvoked, sameFreed⟩ := frame
    refine ⟨rep, ?_, ?_, ?_, ?_⟩
    · rw [sameVisited, seen, saw]
      exact visited
    · rw [sameInvoked, called, ran]
      exact invoked
    · rw [sameNum, num]
      exact agrees.num
    · rw [sameFreed, freed]
      exact agrees.freed
  have back : Represents
      (deleted.listAddTail t.ptr (deleted.getPosition t.reset.timer.interval.toInt32))
      (w.done ++ insertTimer t.reset rest) := by
    rw [← insertTimer_behind t.reset w.done rest passed]
    refine unlinked.listAddTail t.reset ?_ ?_ (handle_absent expired.nodup)
    · rw [timers]
      exact expired.fields t.reset (by simp)
    · rw [num]
      exact expired.bounded t.reset (by simp)
  rcases w.step_cases t rest next with
    ⟨waiting, result⟩ | ⟨due, single, result⟩ | ⟨due, again, alone, result⟩ |
      ⟨due, again, -, result⟩
  · have waits : ¬ t.counted.timer.elapse ≥ t.counted.timer.interval := waiting
    refine ⟨s.increment t.handle, by simp only [tickBody, now, if_neg waits], ?_⟩
    rw [result]
    exact ⟨by simpa [Sweep.all] using counted, visited, agrees.invoked, agrees.num, agrees.freed⟩
  · refine ⟨deleted, by simp [fires due, single], ?_⟩
    rw [result]
    exact fired _ _ unlinked ⟨rfl, rfl, rfl, rfl⟩ rfl rfl
  · refine ⟨_, by rw [fires due, again, if_pos (by simp)], ?_⟩
    rw [result]
    refine fired _ _ ?_ ⟨rfl, rfl, rfl, rfl⟩ rfl rfl
    have stays : insertTimer t.reset rest = t.reset :: rest := by
      rw [insertTimer, show notAfter t.reset = notAfter t from rfl, alone,
        dropWhile_of_takeWhile_nil t rest alone, List.nil_append]
    simpa [Sweep.all, stays] using back
  · refine ⟨_, by rw [fires due, again, if_pos (by simp)], ?_⟩
    rw [result]
    exact fired _ _ back ⟨rfl, rfl, rfl, rfl⟩ rfl rfl

/-- The saved pointer `n` is where the sweep goes on. -/
theorem cursor_step (w : Sweep) (t : Listed) (rest : List Listed) (next : w.todo = t :: rest) :
    cursor w.step.todo = cursor rest := by
  rcases w.step_cases t rest next with
    ⟨-, result⟩ | ⟨-, -, result⟩ | ⟨-, -, -, result⟩ | ⟨-, -, others, result⟩
  · rw [result]
  · rw [result]
  · rw [result]
  · rw [result]
    cases rest with
    | nil => simp at others
    | cons u rest =>
      have first : notAfter t.reset u = true := by
        by_contra stop
        exact others (List.takeWhile_cons_of_neg stop)
      simp [insertTimer, List.takeWhile_cons_of_pos first, cursor]

theorem Represents.next_cursor {s : BtTimerList} {w : Sweep} (rep : Represents s w.all)
    (t : Listed) (rest : List Listed) (next : w.todo = t :: rest) :
    (s.links t.ptr).next = cursor rest := by
  have ring := rep.ring
  simp only [Sweep.all, next, List.map_append, List.map_cons] at ring
  exact ring.next_of_split _

theorem tickLoop_correct (fuel : Nat) {start s : BtTimerList} {w : Sweep}
    (agrees : Agrees start s w) (ordered : Ordered w.all) :
    ∃ s', Agrees start s' (w.steps fuel) ∧
      tickLoop fuel s (cursor w.todo) (s.links (cursor w.todo)).next =
        if (w.steps fuel).todo = [] then .returned s' else .running s' := by
  induction fuel generalizing s w with
  | zero =>
    refine ⟨s, agrees, ?_⟩
    cases next : w.todo with
    | nil => simp [Sweep.steps, next, cursor, tickLoop]
    | cons t rest => simp [Sweep.steps, next, cursor, tickLoop, Listed.ptr]
  | succ fuel ih =>
    cases next : w.todo with
    | nil =>
      refine ⟨s, by simpa [next] using agrees, ?_⟩
      simp [next, cursor, tickLoop]
    | cons t rest =>
      obtain ⟨s₁, body, agrees₁⟩ := tickBody_step agrees ordered t rest next
      obtain ⟨s', final, loop⟩ := ih agrees₁ (w.step_ordered ordered)
      refine ⟨s', final, ?_⟩
      rw [Sweep.steps, ← loop, cursor_step w t rest next,
        show cursor (t :: rest) = .timer t.handle from rfl]
      simp only [tickLoop, body, Outcome.andThen]
      rw [show (s.links (.timer t.handle)).next = cursor rest from
        agrees.rep.next_cursor t rest next]

theorem Represents.begin {s : BtTimerList} {ts : List Listed} (rep : Represents s ts) :
    Agrees s s (begin ts) :=
  ⟨by simpa [Timer.begin, Sweep.all] using rep, by simp [Timer.begin], by simp [Timer.begin],
    rfl, rfl⟩

/-- A tick on the list in memory is a sweep over the timers it represents. -/
theorem btTimerFunc_correct (fuel : Nat) {s : BtTimerList} {ts : List Listed}
    (rep : Represents s ts) (ordered : Ordered ts) :
    ∃ s', Agrees s s' ((begin ts).steps fuel) ∧
      s.btTimerFunc fuel =
        if ((begin ts).steps fuel).todo = [] then .returned s' else .running s' := by
  obtain ⟨s', final, loop⟩ := tickLoop_correct fuel rep.begin
    (by simpa [begin, Sweep.all] using ordered)
  refine ⟨s', final, ?_⟩
  rw [← loop, btTimerFunc, show (s.links .timerList).next = cursor ts from rep.ring.next_head]
  rfl

end BTServer.Timer
