import BTServer.Timer.Frame
import BTServer.Timer.Visits

set_option autoImplicit false

namespace BTServer.Timer

open LinkedList BtTimerList

namespace BtTimerList

/-- Assignments in their order. One through a pointer that is no list head faults. -/
def storeAll (s : BtTimerList) : List (Store Ptr) → Outcome
  | [] => .returned s
  | w :: ws =>
    if w.node.Valid then storeAll { s with links := LinkedList.store s.links w } ws else .fault s

def fill (s : BtTimerList) (func data : Nat) (interval : UInt32) (type : BtTimerType) :
    BtTimerList :=
  let ptr : BtTimer :=
    { timerId := UInt32.ofNat s.num, callback := func, data, type, elapse := 0, interval }
  { s.setTimer s.num ptr with
    links := Function.update s.links (.timer s.num) ⟨.null, .null⟩
    num := s.num + 1 }

def vecAfter (s : BtTimerList) : Nat → Ptr
  | 0 => (s.links .timerList).next
  | rounds + 1 => (s.links (s.vecAfter rounds)).next

def Alike (s s' : BtTimerList) : Prop := s = { s' with deletions := s.deletions }

end BtTimerList

-- Where SIGALRM can find the main program inside `bt_timer_add`.
inductive Point where
  | filled
  | searching (rounds : Nat)
  | found
  | storing (count : Nat)

/-- `bt_timer_add` with a tick at `point`. The pointers read before it are used behind it. -/
def addInterrupted (point : Point) (fuel : Nat) (s : BtTimerList) (func data : Nat)
    (interval : UInt32) (type : BtTimerType) : Outcome :=
  let new := Ptr.timer s.num
  let s := s.fill func data interval type
  match point with
  | .filled => (s.btTimerFunc fuel).andThen fun s =>
      s.storeAll (addTailStores s.links new (s.getPosition interval.toInt32))
  | .searching rounds =>
    let vec := s.vecAfter rounds
    (s.btTimerFunc fuel).andThen fun s =>
      s.storeAll (addTailStores s.links new (s.getPositionFrom interval.toInt32 (s.num + 1) vec))
  | .found =>
    let pos := s.getPosition interval.toInt32
    (s.btTimerFunc fuel).andThen fun s => s.storeAll (addTailStores s.links new pos)
  | .storing count =>
    let writes := addTailStores s.links new (s.getPosition interval.toInt32)
    ((s.storeAll (writes.take count)).andThen (·.btTimerFunc fuel)).andThen fun s =>
      s.storeAll (writes.drop count)

-- What a tick at the point must leave alone: while the list is searched the timer looked at, then
-- the timer found, and between the assignments both sides of the gap.
def Point.Safe (t : Listed) (ts : List Listed) : Point → Prop
  | .filled => True
  | .searching rounds => rounds ≤ (ts.takeWhile (notAfter t)).length ∧
      ∀ u ∈ (ts.drop rounds).head?, ¬ u.Due
  | .found => ∀ u ∈ (ts.dropWhile (notAfter t)).head?, ¬ u.Due
  | .storing count => count < 4 ∧ Quiet (ts.takeWhile (notAfter t)) (ts.dropWhile (notAfter t))

theorem storeAll_valid (s : BtTimerList) (ws : List (Store Ptr))
    (valid : ∀ w ∈ ws, w.node.Valid = true) :
    s.storeAll ws = .returned { s with links := stores s.links ws } := by
  induction ws generalizing s with
  | nil => rfl
  | cons w ws ih =>
    rw [storeAll, if_pos (valid w List.mem_cons_self),
      ih _ fun v member => valid v (List.mem_cons_of_mem _ member)]
    rfl

theorem alike_of_fields {s s' : BtTimerList} (links : s.links = s'.links)
    (timers : s.timers = s'.timers) (num : s.num = s'.num) (invoked : s.invoked = s'.invoked)
    (visited : s.visited = s'.visited) (freed : s.freed = s'.freed) : s.Alike s' := by
  cases s
  simp_all [Alike]

theorem BtTimerList.Alike.trans {s s' s'' : BtTimerList} (first : s.Alike s')
    (second : s'.Alike s'') : s.Alike s'' := by
  rw [BtTimerList.Alike] at first second ⊢
  rw [second] at first
  exact first

theorem BtTimerList.Alike.getPosition {s s' : BtTimerList} (alike : s.Alike s') (interval : Int32) :
    s.getPosition interval = s'.getPosition interval := by
  have follow (fuel : Nat) (vec : Ptr) :
      s.getPositionFrom interval fuel vec = s'.getPositionFrom interval fuel vec := by
    induction fuel generalizing vec with
    | zero => rfl
    | succ fuel ih =>
      cases vec with
      | timer handle =>
        simp only [getPositionFrom, ih]
        rw [alike]
      | _ => rfl
  rw [BtTimerList.getPosition, BtTimerList.getPosition, follow]
  rw [alike]

theorem fill_represents {s : BtTimerList} {ts : List Listed} (rep : Represents s ts)
    (func data : Nat) (interval : UInt32) (type : BtTimerType) :
    Represents (s.fill func data interval type) ts :=
  rep.filled _

theorem fill_tick {fuel : Nat} {s after : BtTimerList} {ts : List Listed} (rep : Represents s ts)
    (ordered : Ordered ts) (ticked : s.btTimerFunc fuel = .returned after) (func data : Nat)
    (interval : UInt32) (type : BtTimerType) :
    ∃ after', (s.fill func data interval type).btTimerFunc fuel = .returned after' ∧
      after'.Alike (after.fill func data interval type) := by
  have absent := rep.fresh
  have torn : Torn (fun place => place.1 = .timer s.num) s.num s (s.fill func data interval type)
      s (s.fill func data interval type) := by
    refine ⟨fun place away => ?_, fun _ _ => ⟨rfl, rfl⟩, fun handle away => ?_, ⟨rfl, rfl⟩,
      ⟨rfl, rfl⟩, rfl, rfl, ⟨rfl, rfl⟩⟩
    · obtain ⟨p, side⟩ := place
      cases side <;> simp [fill, Function.update_of_ne (show p ≠ _ from away)]
    · exact Function.update_of_ne away _ _
  have loose : Loose (fun place => place.1 = .timer s.num) (begin ts) := by
    intro p member side inside
    obtain rfl : p = .timer s.num := inside
    simp only [begin, Sweep.all, List.nil_append, List.mem_cons, reduceCtorEq, false_or,
      mem_pointers] at member
    exact absurd member absent
  obtain ⟨after', ran, torn'⟩ := btTimerFunc_torn rep ordered loose absent torn
    (Nat.le_succ_of_le rep.length_le) ticked
  have num : after.num = s.num := torn'.num.1
  refine ⟨after', ran, alike_of_fields (links_ext fun place => ?_) (funext fun handle => ?_) ?_
    torn'.invoked torn'.visited (torn'.freed.2.trans torn'.freed.1.symm)⟩
  · by_cases inside : place.1 = .timer s.num
    · rw [(torn'.kept place inside).2]
      obtain ⟨p, side⟩ := place
      obtain rfl : p = .timer s.num := inside
      cases side <;> simp [fill, num]
    · rw [torn'.outside place inside]
      obtain ⟨p, side⟩ := place
      cases side <;> simp [fill, num, Function.update_of_ne (show p ≠ _ from inside)]
  · by_cases same : handle = s.num
    · subst same
      rw [torn'.block.2]
      simp [fill, BtTimerList.setTimer, num]
    · rw [torn'.timers handle same]
      simp [fill, BtTimerList.setTimer, num, same]
  · rw [torn'.num.2]
    simp [fill, num]

theorem addTailStores_valid {s : BtTimerList} {ts : List Listed} (rep : Represents s ts)
    (handle : Nat) {front back : List Listed} (split : ts = front ++ back) :
    ∀ w ∈ addTailStores s.links (.timer handle) (cursor back), w.node.Valid = true := by
  intro w member
  simp only [addTailStores, List.mem_cons, List.not_mem_nil, or_false] at member
  rcases member with rfl | rfl | rfl | rfl
  · exact pointers_valid ts _ (cursor_mem (by simp [split]))
  · rfl
  · rfl
  · exact pointers_valid ts _ (rep.prev_mem front back split)

theorem finish_add {s after after' : BtTimerList} {ts' : List Listed} (func data : Nat)
    (interval : UInt32) (type : BtTimerType) (num : after.num = s.num)
    (alike : after'.Alike (after.fill func data interval type)) (rep : Represents after' ts')
    (pos : Ptr)
    (place : pos = cursor (ts'.dropWhile (notAfter (newTimer s.num func data interval type)))) :
    let linked := { after' with
      links := LinkedList.stores after'.links (addTailStores after'.links (.timer s.num) pos) }
    after'.storeAll (addTailStores after'.links (.timer s.num) pos) = .returned linked ∧
      linked.Alike (after.btTimerAdd func data interval type) := by
  intro linked
  constructor
  · refine storeAll_valid _ _ ?_
    rw [place]
    exact addTailStores_valid rep s.num List.takeWhile_append_dropWhile.symm
  · have searched := getPosition_correct rep (newTimer s.num func data interval type)
    have same : (after.fill func data interval type).getPosition interval.toInt32 = pos := by
      rw [place, ← searched, ← alike.getPosition]
      rfl
    have added : after.btTimerAdd func data interval type =
        (after.fill func data interval type).listAddTail (.timer after.num)
          ((after.fill func data interval type).getPosition interval.toInt32) := rfl
    have links : linked.links = LinkedList.listAddTail after'.links (.timer s.num) pos :=
      stores_addTailStores _ _ _
    rw [added, same, num]
    refine alike_of_fields ?_ ?_ ?_ ?_ ?_ ?_
    · rw [links, alike]
      rfl
    all_goals
      simp only [linked]
      rw [alike]
      rfl

def Sweep.Waits (w : Sweep) (t : Listed) (limit : UInt32) : Prop :=
  (∃ front back, w.todo = front ++ t :: back ∧ ∀ u ∈ w.done ++ front, u.interval ≤ limit) ∨
    ∃ front back, w.done = front ++ t.counted :: back ∧ ∀ u ∈ front, u.interval ≤ limit

theorem insertTimer_around (t u : Listed) (front back : List Listed) :
    ∃ front' back', insertTimer t (front ++ u :: back) = front' ++ u :: back' ∧
      ∀ v ∈ front', v = t ∨ v ∈ front := by
  have inserted : insertTimer t (front ++ u :: back) =
      (front ++ u :: back).takeWhile (notAfter t) ++ t :: (front ++ u :: back).dropWhile (notAfter t) :=
    rfl
  by_cases passed : ∀ v ∈ front, notAfter t v = true
  · rw [List.takeWhile_append_of_pos passed, List.dropWhile_append_of_pos passed] at inserted
    by_cases here : notAfter t u = true
    · refine ⟨front, back.takeWhile (notAfter t) ++ t :: back.dropWhile (notAfter t), ?_,
        fun v member => .inr member⟩
      rw [inserted, List.takeWhile_cons_of_pos here, List.dropWhile_cons_of_pos here]
      simp
    · refine ⟨front ++ [t], back, ?_, fun v member => by simpa [or_comm] using member⟩
      rw [inserted, List.takeWhile_cons_of_neg here, List.dropWhile_cons_of_neg here]
      simp
  · push Not at passed
    obtain ⟨v, member, stop⟩ := passed
    have larger : t.interval < v.interval := by simpa [notAfter] using stop
    refine ⟨insertTimer t front, back, (insertTimer_ahead member larger (u :: back)).1, ?_⟩
    intro x inside
    exact (mem_insertTimer _ _ _).mp inside

theorem Sweep.step_waits {w : Sweep} {t : Listed} {limit : UInt32} (waits : w.Waits t limit)
    (undue : ¬ t.Due) (u : Listed) (rest : List Listed) (next : w.todo = u :: rest) :
    w.step.Waits t limit := by
  rcases waits with ⟨front, back, split, small⟩ | ⟨front, back, split, small⟩
  · rw [next] at split
    cases front with
    | nil =>
      rw [List.nil_append] at split
      obtain ⟨rfl, rfl⟩ := List.cons.inj split
      rcases w.step_cases u rest next with
        ⟨-, result⟩ | ⟨due, -⟩ | ⟨due, -⟩ | ⟨due, -⟩
      · exact .inr ⟨w.done, [], by rw [result], by simpa using small⟩
      all_goals exact absurd due undue
    | cons first front =>
      rw [List.cons_append] at split
      obtain ⟨rfl, rfl⟩ := List.cons.inj split
      have here : u.interval ≤ limit := small u (by simp)
      have others : ∀ v ∈ w.done ++ front, v.interval ≤ limit := fun v member =>
        small v (by simp only [List.mem_append, List.mem_cons] at member ⊢; tauto)
      have replaced (x : Listed) (same : x.interval = u.interval) :
          ∀ v ∈ w.done ++ [x] ++ front, v.interval ≤ limit := by
        intro v member
        simp only [List.append_assoc, List.singleton_append, List.mem_append, List.mem_cons] at member
        rcases member with member | rfl | member
        · exact others v (List.mem_append_left _ member)
        · rw [same]
          exact here
        · exact others v (List.mem_append_right _ member)
      rcases w.step_cases u _ next with
        ⟨-, result⟩ | ⟨-, -, result⟩ | ⟨-, -, -, result⟩ | ⟨-, -, -, result⟩
      · exact .inl ⟨front, back, by rw [result], by rw [result]; exact replaced u.counted rfl⟩
      · exact .inl ⟨front, back, by rw [result], by rw [result]; exact others⟩
      · exact .inl ⟨front, back, by rw [result], by rw [result]; exact replaced u.reset rfl⟩
      · obtain ⟨front', back', inserted, source⟩ := insertTimer_around u.reset t front back
        refine .inl ⟨front', back', by rw [result]; exact inserted, fun v member => ?_⟩
        rw [result] at member
        rcases List.mem_append.mp member with member | member
        · exact others v (List.mem_append_left _ member)
        · rcases source v member with rfl | member
          · exact here
          · exact others v (List.mem_append_right _ member)
  · have grows : ∃ more, w.step.done = w.done ++ more := by
      rcases w.step_cases u rest next with
        ⟨-, result⟩ | ⟨-, -, result⟩ | ⟨-, -, -, result⟩ | ⟨-, -, -, result⟩
      · exact ⟨[u.counted], by rw [result]⟩
      · exact ⟨[], by rw [result, List.append_nil]⟩
      · exact ⟨[u.reset], by rw [result]⟩
      · exact ⟨[], by rw [result, List.append_nil]⟩
    obtain ⟨more, same⟩ := grows
    exact .inr ⟨front, back ++ more, by rw [same, split]; simp, small⟩

theorem Sweep.steps_waits (n : Nat) {w : Sweep} {t : Listed} {limit : UInt32}
    (waits : w.Waits t limit) (undue : ¬ t.Due) : (w.steps n).Waits t limit := by
  induction n generalizing w with
  | zero => exact waits
  | succ n ih =>
    cases next : w.todo with
    | nil => rwa [Sweep.steps, w.step_of_nil next, w.steps_of_nil n next]
    | cons u rest => exact ih (step_waits waits undue u rest next)

theorem tick_around {ts : List Listed} (n : Nat) (ended : ((begin ts).steps n).todo = [])
    (t : Listed) (rounds : Nat) (fits : rounds ≤ (ts.takeWhile (notAfter t)).length)
    (undue : ∀ u ∈ (ts.drop rounds).head?, ¬ u.Due) :
    ∃ front back, ((begin ts).steps n).done = front ++ back ∧
      (∀ u ∈ front, notAfter t u = true) ∧ cursor back = cursor (ts.drop rounds) ∧
      back.head?.map Listed.interval = (ts.drop rounds).head?.map Listed.interval := by
  have passed : ∀ u ∈ ts.take rounds, u.interval ≤ t.interval := by
    intro u member
    have inside : u ∈ ts.takeWhile (notAfter t) := by
      have start : ts.take rounds = (ts.takeWhile (notAfter t)).take rounds := by
        conv_lhs => rw [← List.takeWhile_append_dropWhile (p := notAfter t) (l := ts)]
        rw [List.take_append_of_le_length fits]
      rw [start] at member
      exact List.mem_of_mem_take member
    simpa [notAfter] using List.all_eq_true.mp List.all_takeWhile u inside
  cases rest : ts.drop rounds with
  | nil =>
    refine ⟨_, [], (List.append_nil _).symm, fun u member => ?_, rfl, rfl⟩
    obtain ⟨v, inside, -, -, same⟩ := (begin ts).steps_source n u (List.mem_append_left _ member)
    have whole : ts.take rounds = ts := List.take_of_length_le (List.drop_eq_nil_iff.mp rest)
    simp only [notAfter, decide_eq_true_eq, ← same]
    exact passed v (by rw [whole]; exact inside)
  | cons x back =>
    have waits : (begin ts).Waits x t.interval := by
      refine .inl ⟨ts.take rounds, back, ?_, by simpa [begin] using passed⟩
      rw [← rest, List.take_append_drop]
      rfl
    rcases Sweep.steps_waits n waits (undue x (by rw [rest]; rfl)) with
      ⟨front, later, split, -⟩ | ⟨front, later, split, small⟩
    · rw [ended] at split
      exact absurd split.symm (by simp)
    · refine ⟨front, x.counted :: later, split, fun u member => ?_, rfl, rfl⟩
      exact decide_eq_true (small u member)

theorem vecAfter_eq {s : BtTimerList} {ts : List Listed} (rep : Represents s ts) (rounds : Nat)
    (fits : rounds ≤ ts.length) : s.vecAfter rounds = cursor (ts.drop rounds) := by
  induction rounds with
  | zero => exact rep.ring.next_head
  | succ rounds ih =>
    rw [BtTimerList.vecAfter, ih (by omega), List.drop_eq_getElem_cons fits]
    refine rep.follows (ts.take rounds) _ _ ?_
    rw [← List.drop_eq_getElem_cons, List.take_append_drop]

theorem addTailStores_place {links : Links Ptr} {new pos : Ptr} {count : Nat} (few : count < 4)
    (w : Store Ptr) (member : w ∈ (addTailStores links new pos).take count) :
    w.place = (pos, .prev) ∨ w.place.1 = new := by
  have inside : w ∈ (addTailStores links new pos).take 3 :=
    (List.take_sublist_take_left (by omega)).subset member
  simp only [addTailStores, List.take_succ_cons, List.take_zero, List.mem_cons, List.not_mem_nil,
    or_false] at inside
  rcases inside with rfl | rfl | rfl
  · exact .inl rfl
  · exact .inr rfl
  · exact .inr rfl

theorem ticked_represents {s after : BtTimerList} {ts : List Listed} {fuel : Nat}
    (rep : Represents s ts) (ordered : Ordered ts) (ticked : s.btTimerFunc fuel = .returned after) :
    ((begin ts).steps fuel).todo = [] ∧ Represents after ((begin ts).steps fuel).done ∧
      after.num = s.num := by
  obtain ⟨s', agrees, outcome⟩ := btTimerFunc_correct fuel rep ordered
  have ended : ((begin ts).steps fuel).todo = [] := by
    by_contra more
    rw [if_neg more, ticked] at outcome
    exact Outcome.noConfusion outcome
  rw [if_pos ended, ticked] at outcome
  obtain rfl := Outcome.returned.inj outcome
  exact ⟨ended, by simpa [Sweep.all, ended] using agrees.rep, agrees.num⟩

theorem Represents.unique {s : BtTimerList} {ts us : List Listed} (left : Represents s ts)
    (right : Represents s us) : ts = us := by
  have rebuilt (ts : List Listed) (rep : Represents s ts) :
      ts = (ts.map Listed.handle).map fun handle => ⟨handle, s.timers handle⟩ := by
    conv_lhs => rw [← List.map_id ts]
    rw [List.map_map]
    refine List.map_congr_left fun t member => ?_
    simp only [id_eq, Function.comp_apply, rep.fields t member]
  have same : ts.map Listed.handle = us.map Listed.handle := by
    have pointers := left.ring.unique right.ring
    rw [show Listed.ptr = Ptr.timer ∘ Listed.handle from rfl, ← List.map_map, ← List.map_map] at pointers
    exact List.map_injective_iff.mpr (fun _ _ equal => Ptr.timer.inj equal) pointers
  rw [rebuilt ts left, rebuilt us right, same]

theorem position_kept {ts : List Listed} (n : Nat) (ended : ((begin ts).steps n).todo = [])
    (t : Listed) (undue : ∀ u ∈ (ts.dropWhile (notAfter t)).head?, ¬ u.Due) :
    cursor (((begin ts).steps n).done.dropWhile (notAfter t)) =
      cursor (ts.dropWhile (notAfter t)) := by
  have rest : ts.drop (ts.takeWhile (notAfter t)).length = ts.dropWhile (notAfter t) := by
    have split := List.takeWhile_append_dropWhile (p := notAfter t) (l := ts)
    calc ts.drop (ts.takeWhile (notAfter t)).length
        = (ts.takeWhile (notAfter t) ++ ts.dropWhile (notAfter t)).drop
            (ts.takeWhile (notAfter t)).length := by rw [split]
      _ = ts.dropWhile (notAfter t) := List.drop_left
  obtain ⟨front, back, split, passed, here, first⟩ := tick_around n ended t _ le_rfl
    (by rw [rest]; exact undue)
  rw [rest] at here first
  rw [split, List.dropWhile_append_of_pos passed, ← here]
  cases back with
  | nil => rfl
  | cons u back =>
    -- The timer at the head of the rest was one that the search had stopped at.
    cases later : ts.dropWhile (notAfter t) with
    | nil => simp [later] at first
    | cons v later' =>
      have stop := List.head?_dropWhile_not (notAfter t) ts
      rw [later] at first stop
      simp only [List.head?_cons, Option.map_some, Option.some.injEq] at first stop
      rw [List.dropWhile_cons_of_neg]
      simpa [notAfter, first] using stop

theorem storing_interrupted {s after : BtTimerList} {front back : List Listed} {fuel : Nat}
    (rep : Represents s (front ++ back)) (ordered : Ordered (front ++ back))
    (quiet : Quiet front back) (handle : Nat)
    (absent : handle ∉ (front ++ back).map Listed.handle)
    (ticked : s.btTimerFunc fuel = .returned after) {count : Nat} (few : count < 4) :
    let writes := addTailStores s.links (.timer handle) (cursor back)
    (after.links (cursor back)).prev = (s.links (cursor back)).prev ∧
    ∃ s', ((s.storeAll (writes.take count)).andThen (·.btTimerFunc fuel)).andThen
        (·.storeAll (writes.drop count)) = .returned s' ∧
      s'.Alike { after with links := LinkedList.stores after.links writes } := by
  intro writes
  let places : Ptr × Side → Prop := fun place => place = (cursor back, .prev) ∨ place.1 = .timer handle
  have covered : ∀ w ∈ writes.take count, places w.place := addTailStores_place few
  have valid : ∀ w ∈ writes, w.node.Valid = true := addTailStores_valid rep handle rfl
  let torn : BtTimerList := { s with links := stores s.links (writes.take count) }
  have start : Torn places handle s torn s torn :=
    ⟨outside_stores _ _ _ covered, fun _ _ => ⟨rfl, rfl⟩, fun _ _ => rfl, ⟨rfl, rfl⟩, ⟨rfl, rfl⟩,
      rfl, rfl, ⟨rfl, rfl⟩⟩
  have loose : Loose places (begin (front ++ back)) := by
    rintro p member side (here | inside)
    · obtain ⟨rfl, rfl⟩ := Prod.mk.inj here
      exact ⟨rfl, .inl ⟨front, back, rfl, rfl, quiet⟩⟩
    · obtain rfl : p = .timer handle := inside
      simp only [begin, Sweep.all, List.nil_append, List.mem_cons, reduceCtorEq, false_or,
        mem_pointers] at member
      exact absurd member absent
  obtain ⟨after', ran, torn'⟩ := btTimerFunc_torn rep ordered loose absent start rep.length_le ticked
  refine ⟨(torn'.kept (cursor back, .prev) (.inl rfl)).1, ?_⟩
  have resumed := stores_resume s.links after.links after'.links (writes.take count)
    (writes.drop count) covered torn'.outside torn'.kept
  rw [List.take_append_drop] at resumed
  rw [storeAll_valid _ _ fun w member => valid w (List.mem_of_mem_take member)]
  simp only [Outcome.andThen]
  rw [ran]
  simp only
  rw [storeAll_valid _ _ fun w member => valid w (List.mem_of_mem_drop member)]
  exact ⟨_, rfl, alike_of_fields resumed (torn'.timers_eq rfl) (torn'.num.2.trans torn'.num.1.symm)
    torn'.invoked torn'.visited (torn'.freed.2.trans torn'.freed.1.symm)⟩

theorem Reachable.ordered {s : BtTimerList} {ts : List Listed} (reachable : Reachable s)
    (rep : Represents s ts) : Ordered ts := by
  obtain ⟨us, other, ordered⟩ := reachable.represents
  rwa [rep.unique other]

/-- A tick that leaves alone what the main program is about to use comes before the add. -/
theorem add_interrupted_by_tick {s after : BtTimerList} (reachable : Reachable s)
    (ts : List Listed) (rep : Represents s ts) (fuel : Nat)
    (ticked : s.btTimerFunc fuel = .returned after) (func data : Nat) (interval : UInt32)
    (type : BtTimerType) (point : Point)
    (safe : point.Safe (newTimer s.num func data interval type) ts) :
    ∃ s', addInterrupted point fuel s func data interval type = .returned s' ∧
      s'.Alike (after.btTimerAdd func data interval type) := by
  have ordered : Ordered ts := reachable.ordered rep
  obtain ⟨after', ran, alike⟩ := fill_tick rep ordered ticked func data interval type
  have filled := fill_represents rep func data interval type
  obtain ⟨ended, rep', -⟩ := ticked_represents filled ordered ran
  have num := (ticked_represents rep ordered ticked).2.2
  have finish := finish_add (s := s) func data interval type num alike rep'
  cases point with
  | filled =>
    simp only [addInterrupted, ran, Outcome.andThen]
    exact ⟨_, finish _ (getPosition_correct rep' (newTimer s.num func data interval type))⟩
  | searching rounds =>
    obtain ⟨fits, undue⟩ := safe
    have bound : rounds ≤ ts.length := le_trans fits (List.takeWhile_sublist _).length_le
    obtain ⟨front, back, split, passed, here, -⟩ := tick_around fuel ended
      (newTimer s.num func data interval type) rounds fits undue
    simp only [addInterrupted, ran, Outcome.andThen, vecAfter_eq filled rounds bound, ← here]
    refine ⟨_, finish _ ?_⟩
    have searched := getPositionFrom_follows after' interval.toInt32 back (after'.num + 1)
      (fun middle u later same => rep'.follows (front ++ middle) u later (by simp [split, same]))
      (fun u member => rep'.fields u (by simp [split, member]))
      (by have := rep'.length_le; rw [split, List.length_append] at this; omega)
    rw [searched, split, List.dropWhile_append_of_pos passed]
    simp only [UInt32.toUInt32_toInt32]
    rfl
  | found =>
    simp only [addInterrupted, ran, Outcome.andThen]
    refine ⟨_, finish _ ?_⟩
    exact (getPosition_correct filled (newTimer s.num func data interval type)).trans
      (position_kept fuel ended _ safe).symm
  | storing count =>
    obtain ⟨few, quiet⟩ := safe
    have place : (s.fill func data interval type).getPosition interval.toInt32 =
        cursor (ts.dropWhile (notAfter (newTimer s.num func data interval type))) :=
      getPosition_correct filled (newTimer s.num func data interval type)
    have split := List.takeWhile_append_dropWhile
      (p := notAfter (newTimer s.num func data interval type)) (l := ts)
    obtain ⟨before, s', result, alike'⟩ := storing_interrupted (by rwa [split]) (by rwa [split])
      quiet s.num (by rw [split]; exact rep.fresh) ran few
    have added := (finish _ (position_kept fuel ended _ quiet.behind).symm).2
    have writes : addTailStores after'.links (.timer s.num)
        (cursor (ts.dropWhile (notAfter (newTimer s.num func data interval type)))) =
        addTailStores (s.fill func data interval type).links (.timer s.num)
          (cursor (ts.dropWhile (notAfter (newTimer s.num func data interval type)))) := by
      simp only [addTailStores, before]
    rw [writes] at added
    simp only [addInterrupted, place]
    exact ⟨s', result, alike'.trans added⟩

-- The single-shot timer expires while a timer is linked in between the two others.
theorem add_interrupted_between_two :
    let s := ((btTimerInit.btTimerAdd 7 0 1 .btTimerSingle).btTimerAdd 8 0 3 .btTimerRepeat).btTimerAdd
      9 0 9 .btTimerRepeat
    ∃ s', addInterrupted (.storing 2) 10 s 6 0 5 .btTimerRepeat = .returned s' ∧
      s'.Alike ((s.btTimerFunc 10).state.btTimerAdd 6 0 5 .btTimerRepeat) := by
  refine add_interrupted_by_tick
    ⟨0, [.add 7 0 1 .btTimerSingle, .add 8 0 3 .btTimerRepeat, .add 9 0 9 .btTimerRepeat], rfl⟩
    [newTimer 0 7 0 1 .btTimerSingle, newTimer 1 8 0 3 .btTimerRepeat,
      newTimer 2 9 0 9 .btTimerRepeat] ?_ 10 rfl 6 0 5 .btTimerRepeat (.storing 2) ⟨by decide, ?_, ?_⟩
  · have first := btTimerAdd_correct btTimerInit_represents 7 0 1 .btTimerSingle
    have second := btTimerAdd_correct first 8 0 3 .btTimerRepeat
    exact btTimerAdd_correct second 9 0 9 .btTimerRepeat
  · decide
  · decide

theorem Torn.refl (places : Ptr × Side → Prop) (e : Nat) (s : BtTimerList) : Torn places e s s s s :=
  ⟨fun _ _ => rfl, fun _ _ => ⟨rfl, rfl⟩, fun _ _ => rfl, ⟨rfl, rfl⟩, ⟨rfl, rfl⟩, rfl, rfl, ⟨rfl, rfl⟩⟩

theorem tickBody_poisons {start s s₁ : BtTimerList} {w : Sweep} (agrees : Agrees start s w)
    (t : Listed) (rest : List Listed) (next : w.todo = t :: rest) (due : t.Due)
    (single : t.type = .btTimerSingle) (body : s.tickBody t.handle = .returned s₁) :
    (s₁.links t.ptr).prev = .poison2 := by
  have rep := agrees.rep
  rw [Sweep.all, next] at rep
  have now : (s.increment t.handle).timers t.handle = t.counted.timer :=
    rep.increment.fields t.counted (by simp)
  have expires : t.counted.timer.elapse ≥ t.counted.timer.interval := due
  have kind : ¬ t.counted.timer.type ≠ .btTimerSingle := fun other => other single
  simp only [tickBody, now, if_pos expires, if_neg kind, BtTimerList.listDel] at body
  split at body
  next =>
    obtain rfl := Outcome.returned.inj body
    simp only [listDel_prev]
    exact if_pos rfl
  next => exact Outcome.noConfusion body

theorem tickLoop_poisons (fuel : Nat) {start s after : BtTimerList} {w : Sweep}
    (agrees : Agrees start s w) (ordered : Ordered w.all) (t : Listed) (member : t ∈ w.todo)
    (due : t.Due) (single : t.type = .btTimerSingle)
    (ran : tickLoop fuel s (cursor w.todo) (s.links (cursor w.todo)).next = .returned after) :
    (after.links t.ptr).prev = .poison2 := by
  induction fuel generalizing s w with
  | zero =>
    cases next : w.todo with
    | nil => simp [next] at member
    | cons u rest =>
      rw [next] at ran
      exact Outcome.noConfusion ran
  | succ fuel ih =>
    cases next : w.todo with
    | nil => simp [next] at member
    | cons u rest =>
      obtain ⟨s₁, body, agrees₁⟩ := tickBody_step agrees ordered u rest next
      have saved : (s.links u.ptr).next = cursor rest := agrees.rep.next_cursor u rest next
      have rest_ran : tickLoop fuel s₁ (cursor w.step.todo) (s₁.links (cursor w.step.todo)).next =
          .returned after := by
        rw [next, show cursor (u :: rest) = .timer u.handle from rfl] at ran
        simp only [tickLoop, body, Outcome.andThen] at ran
        rwa [show (s.links (.timer u.handle)).next = _ from saved, ← cursor_step w u rest next] at ran
      rw [next] at member
      rcases List.mem_cons.mp member with rfl | later
      · -- From here on the tick does not touch the node any more.
        have gone : t.handle ∉ w.step.all.map Listed.handle := by
          have left : w.step.all = w.done ++ rest := by
            simp [Sweep.all, Sweep.step, next, due, single]
          have nodup := agrees.rep.nodup
          rw [Sweep.all, next] at nodup
          rw [left]
          exact handle_absent nodup
        have loose : Loose (fun place => place.1 = t.ptr) w.step := by
          intro p listed side here
          obtain rfl : p = t.ptr := here
          simp only [Listed.ptr, List.mem_cons, reduceCtorEq, false_or] at listed
          exact absurd ((mem_pointers _ _).mp listed) gone
        obtain ⟨_, _, torn⟩ := tickLoop_torn fuel agrees₁ (w.step_ordered ordered) loose gone
          (Torn.refl _ _ s₁) agrees₁.rep.length_le rest_ran
        have kept := (torn.kept (t.ptr, .prev) rfl).1
        rw [pointer_prev, pointer_prev] at kept
        rw [kept]
        exact tickBody_poisons agrees t rest next due single body
      · exact ih agrees₁ (w.step_ordered ordered)
          ((w.step_sublist u rest next).subset later) rest_ran

theorem btTimerFunc_poisons {fuel : Nat} {s after : BtTimerList} {ts : List Listed}
    (rep : Represents s ts) (ordered : Ordered ts) (ran : s.btTimerFunc fuel = .returned after)
    (t : Listed) (member : t ∈ ts) (due : t.Due) (single : t.type = .btTimerSingle) :
    (after.links t.ptr).prev = .poison2 := by
  have start : (s.links .timerList).next = cursor ts := rep.ring.next_head
  rw [btTimerFunc, start] at ran
  exact tickLoop_poisons fuel (w := begin ts) rep.begin (by simpa [begin, Sweep.all] using ordered) t
    member due single ran

/-- When the tick expires the single-shot timer that `get_position` has found, the add writes
through `LIST_POISON2`. -/
theorem add_behind_expired_faults {s after : BtTimerList} (reachable : Reachable s)
    {ts : List Listed} (rep : Represents s ts) (fuel : Nat)
    (ticked : s.btTimerFunc fuel = .returned after) (func data : Nat) (interval : UInt32)
    (type : BtTimerType) (t : Listed)
    (found : t ∈ (ts.dropWhile (notAfter (newTimer s.num func data interval type))).head?)
    (due : t.Due) (single : t.type = .btTimerSingle) :
    ∃ s', addInterrupted .found fuel s func data interval type = .fault s' := by
  have ordered : Ordered ts := reachable.ordered rep
  obtain ⟨after', ran, -⟩ := fill_tick rep ordered ticked func data interval type
  have filled := fill_represents rep func data interval type
  obtain ⟨rest, split⟩ : ∃ rest,
      ts.dropWhile (notAfter (newTimer s.num func data interval type)) = t :: rest :=
    List.head?_eq_some_iff.mp found
  have place : (s.fill func data interval type).getPosition interval.toInt32 = t.ptr := by
    have searched := getPosition_correct filled (newTimer s.num func data interval type)
    rw [split] at searched
    exact searched
  have member : t ∈ ts := (List.dropWhile_sublist _).subset (by rw [split]; exact List.mem_cons_self)
  have poison := btTimerFunc_poisons filled ordered ran t member due single
  simp only [addInterrupted, ran, Outcome.andThen, place, addTailStores, poison]
  exact ⟨_, rfl⟩

theorem add_behind_expired_faults_once :
    ∃ s', addInterrupted .found 10 (btTimerInit.btTimerAdd 7 0 1 .btTimerSingle) 6 0 0 .btTimerRepeat =
      .fault s' :=
  add_behind_expired_faults ⟨0, [.add 7 0 1 .btTimerSingle], rfl⟩
    (btTimerAdd_correct btTimerInit_represents 7 0 1 .btTimerSingle) 10 rfl 6 0 0 .btTimerRepeat
    (newTimer 0 7 0 1 .btTimerSingle) rfl (by decide) rfl

end BTServer.Timer
