import Mathlib.Data.List.TakeWhile
import BTServer.Shared.Stores
import BTServer.Timer.Refinement

set_option autoImplicit false

namespace BTServer.Timer

open LinkedList BtTimerList

/-- A tick leaves the gap between `front` and `back` alone: the timer behind it is not due, and no
timer that is due has the interval of the one before it. -/
structure Quiet (front back : List Listed) : Prop where
  before : ∀ t ∈ front, t.Due → ∃ u ∈ front, t.interval < u.interval
  behind : ∀ t ∈ back.head?, ¬ t.Due

def Sweep.Still (w : Sweep) (p : Ptr) : Prop :=
  (∃ front back, w.todo = front ++ back ∧ cursor back = p ∧ Quiet front back) ∨
    p ∈ w.done.map Listed.ptr

theorem cursor_cases (ts : List Listed) : cursor ts = .timerList ∨ cursor ts ∈ ts.map Listed.ptr := by
  cases ts with
  | nil => exact .inl rfl
  | cons t ts => exact .inr List.mem_cons_self

theorem pointers_nodup {ts : List Listed} (nodup : (ts.map Listed.handle).Nodup) :
    (ts.map Listed.ptr).Nodup := by
  rw [show ts.map Listed.ptr = (ts.map Listed.handle).map Ptr.timer by simp [Listed.ptr]]
  exact nodup.map fun _ _ same => Ptr.timer.inj same

theorem insertTimer_ahead {t u : Listed} {front : List Listed} (member : u ∈ front)
    (larger : t.interval < u.interval) (back : List Listed) :
    insertTimer t (front ++ back) = insertTimer t front ++ back ∧
      (front ++ back).dropWhile (notAfter t) = front.dropWhile (notAfter t) ++ back ∧
      front.dropWhile (notAfter t) ≠ [] := by
  have remains : front.dropWhile (notAfter t) ≠ [] := by
    intro none
    have all := List.dropWhile_eq_nil_iff.mp none u member
    simp only [notAfter, decide_eq_true_eq] at all
    exact absurd larger (UInt32.not_lt.mpr all)
  have drop : (front ++ back).dropWhile (notAfter t) = front.dropWhile (notAfter t) ++ back := by
    rw [List.dropWhile_append, if_neg (by simpa using remains)]
  refine ⟨?_, drop, remains⟩
  have whole : ((front ++ back).takeWhile (notAfter t)) = front.takeWhile (notAfter t) := by
    have left := List.takeWhile_append_dropWhile (p := notAfter t) (l := front ++ back)
    have right := List.takeWhile_append_dropWhile (p := notAfter t) (l := front)
    rw [drop, ← List.append_assoc] at left
    have := List.append_cancel_right left
    exact List.append_cancel_right (this.trans right.symm)
  rw [insertTimer, insertTimer, drop, whole]
  simp

theorem Quiet.tail {t : Listed} {front back : List Listed} (quiet : Quiet (t :: front) back)
    (sorted : ∀ u ∈ front, t.interval ≤ u.interval) : Quiet front back := by
  refine ⟨fun u member due => ?_, quiet.behind⟩
  obtain ⟨v, inside, larger⟩ := quiet.before u (List.mem_cons_of_mem _ member) due
  rcases List.mem_cons.mp inside with rfl | inside
  · exact absurd larger (UInt32.not_lt.mpr (sorted u member))
  · exact ⟨v, inside, larger⟩

theorem Quiet.later {t : Listed} {front back : List Listed} (quiet : Quiet (t :: front) back)
    (due : t.Due) : ∃ u ∈ front, t.interval < u.interval := by
  obtain ⟨u, inside, larger⟩ := quiet.before t List.mem_cons_self due
  rcases List.mem_cons.mp inside with rfl | inside
  · exact absurd larger (UInt32.lt_irrefl _)
  · exact ⟨u, inside, larger⟩

theorem Sweep.step_done (w : Sweep) (t : Listed) (rest : List Listed) (next : w.todo = t :: rest)
    (p : Ptr) (member : p ∈ w.done.map Listed.ptr) : p ∈ w.step.done.map Listed.ptr := by
  rcases w.step_cases t rest next with
    ⟨-, result⟩ | ⟨-, -, result⟩ | ⟨-, -, -, result⟩ | ⟨-, -, -, result⟩ <;>
    simp only [result, List.map_append, List.mem_append, member, true_or]

theorem Sweep.step_still {w : Sweep} {p : Ptr} (still : w.Still p) (ordered : Ordered w.all)
    (t : Listed) (rest : List Listed) (next : w.todo = t :: rest) : w.step.Still p := by
  rcases still with ⟨front, back, split, here, quiet⟩ | passed
  · rw [next] at split
    have sorted : ∀ u ∈ rest, t.interval ≤ u.interval := by
      have := (List.pairwise_append.mp ordered.sorted).2.1
      rw [next, List.pairwise_cons] at this
      exact this.1
    cases front with
    | nil =>
      -- The cursor stands on the timer behind the gap, which only waits.
      obtain rfl : t :: rest = back := split
      have waits : ¬ t.Due := quiet.behind t rfl
      rcases w.step_cases t rest next with
        ⟨-, result⟩ | ⟨due, -⟩ | ⟨due, -⟩ | ⟨due, -⟩
      · right
        rw [result, ← here]
        simp [cursor, Listed.ptr]
      all_goals exact absurd due waits
    | cons first front =>
      rw [List.cons_append] at split
      obtain ⟨rfl, rfl⟩ := List.cons.inj split
      have rest_quiet : Quiet front back := quiet.tail fun u member =>
        sorted u (List.mem_append_left _ member)
      rcases w.step_cases t (front ++ back) next with
        ⟨-, result⟩ | ⟨-, -, result⟩ | ⟨-, -, -, result⟩ | ⟨due, -, -, result⟩
      · exact .inl ⟨front, back, by rw [result], here, rest_quiet⟩
      · exact .inl ⟨front, back, by rw [result], here, rest_quiet⟩
      · exact .inl ⟨front, back, by rw [result], here, rest_quiet⟩
      · obtain ⟨u, inside, larger⟩ := quiet.later due
        refine .inl ⟨insertTimer t.reset front, back, ?_, here, ?_, rest_quiet.behind⟩
        · rw [result]
          exact (insertTimer_ahead (t := t.reset) inside larger back).1
        · intro v member again
          rcases (mem_insertTimer _ _ _).mp member with rfl | member
          · exact ⟨u, (mem_insertTimer _ _ _).mpr (.inr inside), larger⟩
          · obtain ⟨x, within, more⟩ := rest_quiet.before v member again
            exact ⟨x, (mem_insertTimer _ _ _).mpr (.inr within), more⟩
  · exact .inr (w.step_done t rest next p passed)

theorem Sweep.Still.spares {w : Sweep} {p : Ptr} (still : w.Still p)
    (nodup : (w.all.map Listed.handle).Nodup) (t : Listed) (rest : List Listed)
    (next : w.todo = t :: rest) (due : t.Due) :
    t.ptr ≠ p ∧ cursor rest ≠ p ∧ cursor (rest.dropWhile (notAfter t)) ≠ p := by
  have distinct := pointers_nodup nodup
  rw [Sweep.all, next, List.map_append, List.nodup_append] at distinct
  obtain ⟨-, ahead, across⟩ := distinct
  rcases still with ⟨front, back, split, here, quiet⟩ | passed
  · rw [next] at split
    cases front with
    | nil =>
      obtain rfl : t :: rest = back := split
      exact absurd due (quiet.behind t rfl)
    | cons first front =>
      rw [List.cons_append] at split
      obtain ⟨rfl, rfl⟩ := List.cons.inj split
      have other (u : Listed) (member : u ∈ t :: front) : u.ptr ≠ p := by
        rw [← here]
        rcases cursor_cases back with none | inside
        · rw [none]
          exact Ptr.noConfusion
        · rw [← List.cons_append, List.map_append, List.nodup_append] at ahead
          exact ahead.2.2 u.ptr (List.mem_map_of_mem member) _ inside
      obtain ⟨u, inside, larger⟩ := quiet.later due
      obtain ⟨-, drop, remains⟩ := insertTimer_ahead inside larger back
      have start (us : List Listed) (sub : us ⊆ front) (some : us ≠ []) : cursor (us ++ back) ≠ p := by
        cases us with
        | nil => exact absurd rfl some
        | cons v us => exact other v (List.mem_cons_of_mem _ (sub List.mem_cons_self))
      refine ⟨other t List.mem_cons_self, start front (List.Subset.refl _) ?_, ?_⟩
      · exact List.ne_nil_of_mem inside
      · rw [drop]
        exact start _ (List.dropWhile_subset _) remains
  · have other (us : List Listed) (sub : us ⊆ t :: rest) : cursor us ≠ p := by
      intro same
      rcases cursor_cases us with none | inside
      · rw [same] at none
        rw [none] at passed
        obtain ⟨v, -, wrong⟩ := List.mem_map.mp passed
        exact Ptr.noConfusion wrong
      · rw [same] at inside
        obtain ⟨v, member, rfl⟩ := List.mem_map.mp inside
        exact across v.ptr passed v.ptr (List.mem_map_of_mem (sub member)) rfl
    refine ⟨other [t] (by simp), other rest (List.subset_cons_self _ _), other _ ?_⟩
    exact List.Subset.trans (List.dropWhile_subset _) (List.subset_cons_self _ _)

/-- Two runs over the same timers. The second finds other pointers on some places, which neither
run touches, and another timer in the block of `e`. -/
structure Torn (places : Ptr × Side → Prop) (e : Nat) (s₀ s₀' s s' : BtTimerList) : Prop where
  outside : Outside places s.links s'.links
  kept : ∀ place, places place → pointer s.links place = pointer s₀.links place ∧
    pointer s'.links place = pointer s₀'.links place
  timers : ∀ handle, handle ≠ e → s'.timers handle = s.timers handle
  block : s.timers e = s₀.timers e ∧ s'.timers e = s₀'.timers e
  num : s.num = s₀.num ∧ s'.num = s₀'.num
  visited : s'.visited = s.visited
  invoked : s'.invoked = s.invoked
  freed : s.freed = s₀.freed ∧ s'.freed = s₀'.freed

theorem Torn.timers_eq {places : Ptr × Side → Prop} {e : Nat} {s₀ s₀' s s' : BtTimerList}
    (torn : Torn places e s₀ s₀' s s') (same : s₀'.timers e = s₀.timers e) :
    s'.timers = s.timers := by
  funext handle
  by_cases here : handle = e
  · rw [here, torn.block.2, torn.block.1, same]
  · exact torn.timers handle here

def Loose (places : Ptr × Side → Prop) (w : Sweep) : Prop :=
  ∀ p ∈ Ptr.timerList :: w.all.map Listed.ptr, ∀ side, places (p, side) → side = .prev ∧ w.Still p

theorem Torn.stores {places : Ptr × Side → Prop} {e : Nat} {s₀ s₀' s s' : BtTimerList}
    (torn : Torn places e s₀ s₀' s s') (ws : List (Store Ptr)) (apart : ∀ w ∈ ws, ¬ places w.place)
    (log log' : List (Links Ptr × Ptr)) :
    Torn places e s₀ s₀' { s with links := stores s.links ws, deletions := log }
      { s' with links := LinkedList.stores s'.links ws, deletions := log' } := by
  refine ⟨torn.outside.stores ws, fun place inside => ?_, torn.timers, torn.block, torn.num,
    torn.visited, torn.invoked, torn.freed⟩
  have untouched : ∀ w ∈ ws, place ≠ w.place := by
    rintro w member rfl
    exact apart w member inside
  simp only [pointer_stores_untouched _ _ _ untouched]
  exact torn.kept place inside

theorem Torn.setTimer {places : Ptr × Side → Prop} {e : Nat} {s₀ s₀' s s' : BtTimerList}
    (torn : Torn places e s₀ s₀' s s') {handle : Nat} (other : handle ≠ e) (t : BtTimer) :
    Torn places e s₀ s₀' (s.setTimer handle t) (s'.setTimer handle t) := by
  refine ⟨torn.outside, torn.kept, fun h away => ?_, ?_, torn.num, torn.visited, torn.invoked,
    torn.freed⟩
  · by_cases same : h = handle
    · subst same
      simp [BtTimerList.setTimer]
    · simp [BtTimerList.setTimer, same, torn.timers h away]
  · simp only [BtTimerList.setTimer, Function.update_of_ne (Ne.symm other)]
    exact torn.block

theorem Torn.increment {places : Ptr × Side → Prop} {e : Nat} {s₀ s₀' s s' : BtTimerList}
    (torn : Torn places e s₀ s₀' s s') {handle : Nat} (other : handle ≠ e) :
    Torn places e s₀ s₀' (s.increment handle) (s'.increment handle) := by
  have set := torn.setTimer other { s.timers handle with elapse := (s.timers handle).elapse + 1 }
  refine ⟨set.outside, set.kept, ?_, ?_, set.num, ?_, set.invoked, set.freed⟩
  · simpa only [BtTimerList.increment, torn.timers handle other] using set.timers
  · simpa only [BtTimerList.increment, torn.timers handle other] using set.block
  · simp only [BtTimerList.increment, torn.visited]

theorem Torn.expire {places : Ptr × Side → Prop} {e : Nat} {s₀ s₀' s s' : BtTimerList}
    (torn : Torn places e s₀ s₀' s s') {handle : Nat} (other : handle ≠ e) :
    Torn places e s₀ s₀' (s.expire handle) (s'.expire handle) := by
  have set := torn.setTimer other { s.timers handle with elapse := 0 }
  refine ⟨set.outside, set.kept, ?_, ?_, set.num, set.visited, ?_, set.freed⟩
  · simpa only [BtTimerList.expire, torn.timers handle other] using set.timers
  · simpa only [BtTimerList.expire, torn.timers handle other] using set.block
  · simp only [BtTimerList.expire, torn.invoked, torn.timers handle other]

theorem Torn.same {places : Ptr × Side → Prop} {e : Nat} {s₀ s₀' s s' : BtTimerList}
    (torn : Torn places e s₀ s₀' s s') {place : Ptr × Side} (absent : ¬ places place) :
    pointer s'.links place = pointer s.links place :=
  torn.outside place absent

theorem Torn.listDel {places : Ptr × Side → Prop} {e : Nat} {s₀ s₀' s s' s₁ : BtTimerList}
    (torn : Torn places e s₀ s₀' s s') (entry : Ptr) (here : ∀ side, ¬ places (entry, side))
    (next : ¬ places ((s.links entry).next, .prev)) (prev : ¬ places ((s.links entry).prev, .next))
    (deletion : s.listDel entry = .returned s₁) :
    ∃ s₁', s'.listDel entry = .returned s₁' ∧ Torn places e s₀ s₀' s₁ s₁' := by
  have sameNext : (s'.links entry).next = (s.links entry).next := torn.same (here .next)
  have samePrev : (s'.links entry).prev = (s.links entry).prev := torn.same (here .prev)
  have writes : delStores .poison1 .poison2 s'.links entry =
      delStores .poison1 .poison2 s.links entry := by
    simp only [delStores, sameNext, samePrev]
  simp only [BtTimerList.listDel] at deletion ⊢
  rw [sameNext, samePrev]
  split at deletion
  next valid =>
    obtain rfl := Outcome.returned.inj deletion
    rw [if_pos valid]
    refine ⟨_, rfl, ?_⟩
    rw [← stores_delStores, ← stores_delStores, writes]
    refine torn.stores _ ?_ _ _
    intro w member
    simp only [delStores, List.mem_cons, List.not_mem_nil, or_false] at member
    rcases member with rfl | rfl | rfl | rfl
    · exact next
    · exact prev
    · exact here .next
    · exact here .prev
  next => exact Outcome.noConfusion deletion

theorem Torn.listAddTail {places : Ptr × Side → Prop} {e : Nat} {s₀ s₀' s s' : BtTimerList}
    (torn : Torn places e s₀ s₀' s s') (new head : Ptr) (here : ∀ side, ¬ places (new, side))
    (next : ¬ places (head, .prev)) (prev : ¬ places ((s.links head).prev, .next)) :
    Torn places e s₀ s₀' (s.listAddTail new head) (s'.listAddTail new head) := by
  have samePrev : (s'.links head).prev = (s.links head).prev := torn.same next
  have writes : addTailStores s'.links new head = addTailStores s.links new head := by
    simp only [addTailStores, samePrev]
  simp only [BtTimerList.listAddTail]
  rw [← stores_addTailStores, ← stores_addTailStores, writes]
  refine torn.stores _ ?_ _ _
  intro w member
  simp only [addTailStores, List.mem_cons, List.not_mem_nil, or_false] at member
  rcases member with rfl | rfl | rfl | rfl
  · exact next
  · exact here .next
  · exact here .prev
  · exact prev

theorem getPositionFrom_follows (s : BtTimerList) (interval : Int32) (ts : List Listed) (fuel : Nat)
    (follow : ∀ front t back, ts = front ++ t :: back → (s.links t.ptr).next = cursor back)
    (fields : ∀ t ∈ ts, s.timers t.handle = t.timer) (enough : ts.length < fuel) :
    s.getPositionFrom interval fuel (cursor ts) =
      cursor (ts.dropWhile fun t => t.interval ≤ interval.toUInt32) := by
  induction ts generalizing fuel with
  | nil => cases fuel <;> rfl
  | cons t ts ih =>
    obtain ⟨fuel, rfl⟩ : ∃ n, fuel = n + 1 := ⟨fuel - 1, by simp at enough; omega⟩
    have stored : (s.timers t.handle).interval = t.interval := by
      rw [fields t List.mem_cons_self]
      rfl
    rw [show cursor (t :: ts) = .timer t.handle from rfl]
    simp only [getPositionFrom, stored]
    by_cases larger : t.interval > interval.toUInt32
    · rw [if_pos larger, List.dropWhile_cons_of_neg (by simpa using larger)]
      rfl
    · rw [if_neg larger, List.dropWhile_cons_of_pos (by simpa using larger)]
      rw [show (s.links (.timer t.handle)).next = cursor ts from follow [] t ts rfl]
      refine ih fuel (fun front u back split => ?_)
        (fun u member => fields u (List.mem_cons_of_mem _ member)) (by simpa using enough)
      exact follow (t :: front) u back (by rw [split, List.cons_append])

theorem Represents.follows {s : BtTimerList} {ts : List Listed} (rep : Represents s ts)
    (front : List Listed) (t : Listed) (back : List Listed) (split : ts = front ++ t :: back) :
    (s.links t.ptr).next = cursor back := by
  have ring : Ring s.links .timerList (front.map Listed.ptr ++ t.ptr :: back.map Listed.ptr) := by
    simpa [split] using rep.ring
  exact Ring.next_of_split _ ring

theorem Represents.prev_mem {s : BtTimerList} {ts : List Listed} (rep : Represents s ts)
    (front back : List Listed) (split : ts = front ++ back) :
    (s.links (cursor back)).prev ∈ Ptr.timerList :: ts.map Listed.ptr := by
  have ring := rep.ring
  rw [split, List.map_append] at ring
  have last : (s.links (cursor back)).prev = _ := ring.prev_of_split _ _
  rw [last, split, List.map_append]
  exact (sides_mem _ _ _).1

theorem Torn.getPosition {places : Ptr × Side → Prop} {e : Nat} {s₀ s₀' s s' : BtTimerList}
    (torn : Torn places e s₀ s₀' s s') {ts : List Listed} (rep : Represents s ts) (t : Listed)
    (whole : ∀ p ∈ Ptr.timerList :: ts.map Listed.ptr, ¬ places (p, .next))
    (absent : e ∉ ts.map Listed.handle) (enough : ts.length ≤ s'.num) :
    s'.getPosition t.timer.interval.toInt32 = cursor (ts.dropWhile (notAfter t)) := by
  have same (p : Ptr) (member : p ∈ Ptr.timerList :: ts.map Listed.ptr) :
      (s'.links p).next = (s.links p).next := torn.same (whole p member)
  have start : (s'.links .timerList).next = cursor ts :=
    (same _ List.mem_cons_self).trans rep.ring.next_head
  rw [BtTimerList.getPosition, start, getPositionFrom_follows s' _ ts (s'.num + 1) ?_ ?_ (by omega)]
  · simp only [UInt32.toUInt32_toInt32]
    rfl
  · intro front u back split
    rw [same u.ptr (by simp [split])]
    exact rep.follows front u back split
  · intro u member
    rw [torn.timers u.handle fun equal => absent (equal ▸ List.mem_map_of_mem member)]
    exact rep.fields u member

theorem Loose.whole {places : Ptr × Side → Prop} {w : Sweep} (loose : Loose places w) (p : Ptr)
    (member : p ∈ Ptr.timerList :: w.all.map Listed.ptr) : ¬ places (p, .next) := by
  intro inside
  exact Side.noConfusion (loose p member .next inside).1

theorem Loose.free {places : Ptr × Side → Prop} {w : Sweep} (loose : Loose places w) (p : Ptr)
    (member : p ∈ Ptr.timerList :: w.all.map Listed.ptr) (stirred : ¬ w.Still p) (side : Side) :
    ¬ places (p, side) :=
  fun inside => stirred (loose p member side inside).2

theorem cursor_mem {ts us : List Listed} (sub : us ⊆ ts) :
    cursor us ∈ Ptr.timerList :: ts.map Listed.ptr := by
  rcases cursor_cases us with none | inside
  · rw [none]
    exact List.mem_cons_self
  · exact List.mem_cons_of_mem _ (List.map_subset _ sub inside)

theorem Sweep.step_fewer (w : Sweep) (t : Listed) (rest : List Listed) (next : w.todo = t :: rest) :
    w.step.all.map Listed.handle ⊆ w.all.map Listed.handle := by
  intro handle member
  simp only [Sweep.all, next]
  rcases w.step_cases t rest next with
    ⟨-, result⟩ | ⟨-, -, result⟩ | ⟨-, -, -, result⟩ | ⟨-, -, -, result⟩
  · simpa [Sweep.all, result] using member
  · simp only [Sweep.all, result, List.map_append, List.mem_append, List.map_cons,
      List.mem_cons] at member ⊢
    tauto
  · simpa [Sweep.all, result] using member
  · simp only [Sweep.all, result, List.map_append, List.mem_append,
      ((insertTimer_perm t.reset rest).map Listed.handle).mem_iff] at member ⊢
    exact member

theorem Loose.step {places : Ptr × Side → Prop} {w : Sweep} (loose : Loose places w)
    (ordered : Ordered w.all) (t : Listed) (rest : List Listed) (next : w.todo = t :: rest) :
    Loose places w.step := by
  intro p member side inside
  have before : p ∈ Ptr.timerList :: w.all.map Listed.ptr := by
    rcases List.mem_cons.mp member with rfl | member
    · exact List.mem_cons_self
    · obtain ⟨u, -, rfl⟩ := List.mem_map.mp member
      refine List.mem_cons_of_mem _ ((mem_pointers _ _).mpr ?_)
      exact w.step_fewer t rest next ((mem_pointers _ _).mp member)
  obtain ⟨back, still⟩ := loose p before side inside
  exact ⟨back, w.step_still still ordered t rest next⟩

theorem tickBody_torn {places : Ptr × Side → Prop} {e : Nat} {start s₀ s₀' s s' s₁ : BtTimerList}
    {w : Sweep} (agrees : Agrees start s w) (ordered : Ordered w.all) (loose : Loose places w)
    (absent : e ∉ w.all.map Listed.handle) (torn : Torn places e s₀ s₀' s s')
    (enough : w.all.length ≤ s'.num) (t : Listed) (rest : List Listed) (next : w.todo = t :: rest)
    (body : s.tickBody t.handle = .returned s₁) :
    ∃ s₁', s'.tickBody t.handle = .returned s₁' ∧ Torn places e s₀ s₀' s₁ s₁' := by
  have rep := agrees.rep
  have all : w.all = w.done ++ t :: rest := by rw [Sweep.all, next]
  have nodup := rep.nodup
  have inside : t ∈ w.all := by simp [all]
  have other : t.handle ≠ e := fun same => absent (same ▸ List.mem_map_of_mem inside)
  have counting := torn.increment other
  rw [all] at rep
  have now : (s.increment t.handle).timers t.handle = t.counted.timer :=
    rep.increment.fields t.counted (by simp)
  have now' : (s'.increment t.handle).timers t.handle = t.counted.timer := by
    rw [counting.timers t.handle other, now]
  simp only [tickBody, now, now'] at body ⊢
  by_cases due : t.Due
  · have expires : t.counted.timer.elapse ≥ t.counted.timer.interval := due
    rw [if_pos expires] at body ⊢
    have expired := rep.increment.expire
    obtain ⟨deleted, deletion, unlinked, -, -, -⟩ := expired.listDel
    -- Neither the timer nor the gap it leaves has a torn pointer.
    have spared (p : Ptr) (member : p ∈ Ptr.timerList :: w.all.map Listed.ptr)
        (touched : p = t.ptr ∨ p = cursor rest ∨ p = cursor (rest.dropWhile (notAfter t)))
        (side : Side) : ¬ places (p, side) := by
      refine loose.free p member (fun still => ?_) side
      obtain ⟨first, second, third⟩ := still.spares nodup t rest next due
      rcases touched with same | same | same
      · exact first same.symm
      · exact second same.symm
      · exact third same.symm
    have here := spared t.ptr (List.mem_cons_of_mem _ (List.mem_map_of_mem inside)) (.inl rfl)
    have behind : (((s.increment t.handle).expire t.handle).links t.ptr).next = cursor rest :=
      expired.follows w.done t.reset rest rfl
    have before : (((s.increment t.handle).expire t.handle).links t.ptr).prev ∈
        Ptr.timerList :: w.all.map Listed.ptr := by
      have member := expired.prev_mem w.done (t.reset :: rest) rfl
      simpa [all, Listed.ptr, cursor] using member
    obtain ⟨deleted', deletion', gone⟩ := (counting.expire other).listDel t.ptr here
      (by rw [behind]; exact spared _ (cursor_mem (by simp [all])) (.inr (.inl rfl)) .prev)
      (loose.whole _ before) deletion
    rw [show BtTimerList.listDel _ (Ptr.timer t.handle) = _ from deletion] at body
    rw [show BtTimerList.listDel _ (Ptr.timer t.handle) = _ from deletion']
    simp only [Outcome.andThen] at body ⊢
    split at body
    next again =>
      rw [if_pos again]
      obtain rfl := Outcome.returned.inj body
      refine ⟨_, rfl, ?_⟩
      have sub : w.done ++ rest ⊆ w.all := by
        intro u member
        rw [all]
        simp only [List.mem_append, List.mem_cons] at member ⊢
        tauto
      have subPtr {p : Ptr} (member : p ∈ Ptr.timerList :: (w.done ++ rest).map Listed.ptr) :
          p ∈ Ptr.timerList :: w.all.map Listed.ptr := by
        rcases List.mem_cons.mp member with rfl | member
        · exact List.mem_cons_self
        · exact List.mem_cons_of_mem _ (List.map_subset _ sub member)
      have shorter : (w.done ++ rest).length ≤ deleted'.num := by
        rw [gone.num.2, ← torn.num.2]
        refine le_trans ?_ enough
        simp [all]
      have place := getPosition_correct unlinked t.reset
      have place' := gone.getPosition unlinked t.reset (fun p member => loose.whole p (subPtr member))
        (fun member => absent (List.map_subset _ sub member)) shorter
      have passed : ∀ u ∈ w.done, notAfter t.reset u = true := by
        intro u member
        rw [all] at ordered
        exact decide_eq_true ((List.pairwise_append.mp ordered.sorted).2.2 u member t (by simp))
      rw [List.dropWhile_append_of_pos passed] at place place'
      change Torn places e s₀ s₀'
        (deleted.listAddTail t.ptr (deleted.getPosition t.reset.timer.interval.toInt32))
        (deleted'.listAddTail t.ptr (deleted'.getPosition t.reset.timer.interval.toInt32))
      rw [place, place']
      refine gone.listAddTail _ _ here ?_ ?_
      · refine spared _ (subPtr (cursor_mem ?_)) (.inr (.inr rfl)) .prev
        exact List.Subset.trans (List.dropWhile_subset _) (List.subset_append_right _ _)
      · refine loose.whole _ (subPtr (unlinked.prev_mem (w.done ++ rest.takeWhile (notAfter t.reset))
          (rest.dropWhile (notAfter t.reset)) ?_))
        rw [List.append_assoc, List.takeWhile_append_dropWhile]
    next single =>
      rw [if_neg single]
      obtain rfl := Outcome.returned.inj body
      exact ⟨_, rfl, gone⟩
  · have waits : ¬ t.counted.timer.elapse ≥ t.counted.timer.interval := due
    rw [if_neg waits] at body ⊢
    obtain rfl := Outcome.returned.inj body
    exact ⟨_, rfl, counting⟩

theorem Sweep.step_length (w : Sweep) (t : Listed) (rest : List Listed) (next : w.todo = t :: rest) :
    w.step.all.length ≤ w.all.length := by
  rcases w.step_cases t rest next with
    ⟨-, result⟩ | ⟨-, -, result⟩ | ⟨-, -, -, result⟩ | ⟨-, -, -, result⟩
  · simp [Sweep.all, result, next]
  · simp [Sweep.all, result, next]
  · simp [Sweep.all, result, next]
  · simp [Sweep.all, result, next, (insertTimer_perm t.reset rest).length_eq]

/-- A tick does the same beside torn pointers as without them. -/
theorem tickLoop_torn (fuel : Nat) {places : Ptr × Side → Prop} {e : Nat}
    {start s₀ s₀' s s' after : BtTimerList} {w : Sweep} (agrees : Agrees start s w)
    (ordered : Ordered w.all) (loose : Loose places w) (absent : e ∉ w.all.map Listed.handle)
    (torn : Torn places e s₀ s₀' s s') (enough : w.all.length ≤ s'.num)
    (clean : tickLoop fuel s (cursor w.todo) (s.links (cursor w.todo)).next = .returned after) :
    ∃ after', tickLoop fuel s' (cursor w.todo) (s'.links (cursor w.todo)).next =
      .returned after' ∧ Torn places e s₀ s₀' after after' := by
  induction fuel generalizing s s' w with
  | zero =>
    cases next : w.todo with
    | nil =>
      rw [next] at clean
      obtain rfl := Outcome.returned.inj clean
      exact ⟨s', rfl, torn⟩
    | cons t rest =>
      rw [next] at clean
      exact Outcome.noConfusion clean
  | succ fuel ih =>
    cases next : w.todo with
    | nil =>
      rw [next] at clean
      obtain rfl := Outcome.returned.inj clean
      exact ⟨s', rfl, torn⟩
    | cons t rest =>
      obtain ⟨s₁, body, agrees₁⟩ := tickBody_step agrees ordered t rest next
      obtain ⟨s₁', body', torn₁⟩ := tickBody_torn agrees ordered loose absent torn enough t rest next
        body
      have inside : t.ptr ∈ Ptr.timerList :: w.all.map Listed.ptr := by simp [Sweep.all, next]
      have saved : (s.links t.ptr).next = cursor rest := agrees.rep.next_cursor t rest next
      have saved' : (s'.links t.ptr).next = cursor rest :=
        (torn.same (loose.whole _ inside)).trans saved
      have same : (s₁'.links (cursor rest)).next = (s₁.links (cursor rest)).next :=
        torn₁.same (loose.whole _ (cursor_mem (by simp [Sweep.all, next])))
      rw [next, show cursor (t :: rest) = .timer t.handle from rfl] at clean
      rw [show cursor (t :: rest) = .timer t.handle from rfl]
      simp only [tickLoop, body, body', Outcome.andThen] at clean ⊢
      rw [show (s.links (.timer t.handle)).next = _ from saved, ← cursor_step w t rest next] at clean
      rw [show (s'.links (.timer t.handle)).next = _ from saved', ← cursor_step w t rest next]
      refine ih agrees₁ (w.step_ordered ordered) (loose.step ordered t rest next)
        (fun member => absent (w.step_fewer t rest next member)) torn₁ ?_ clean
      rw [torn₁.num.2, ← torn.num.2]
      exact le_trans (w.step_length t rest next) enough

theorem btTimerFunc_torn {fuel : Nat} {places : Ptr × Side → Prop} {e : Nat}
    {s s' after : BtTimerList} {ts : List Listed} (rep : Represents s ts) (ordered : Ordered ts)
    (loose : Loose places (begin ts)) (absent : e ∉ ts.map Listed.handle)
    (torn : Torn places e s s' s s') (enough : ts.length ≤ s'.num)
    (clean : s.btTimerFunc fuel = .returned after) :
    ∃ after', s'.btTimerFunc fuel = .returned after' ∧ Torn places e s s' after after' := by
  have whole : (begin ts).all = ts := by simp [begin, Sweep.all]
  have start : (s.links .timerList).next = cursor ts := rep.ring.next_head
  have start' : (s'.links .timerList).next = cursor ts :=
    (torn.same (loose.whole _ List.mem_cons_self)).trans start
  simp only [btTimerFunc] at clean ⊢
  rw [start] at clean
  rw [start']
  exact tickLoop_torn fuel (w := begin ts) rep.begin (by rwa [whole]) loose (by rwa [whole]) torn
    (by rwa [whole]) clean

end BTServer.Timer
