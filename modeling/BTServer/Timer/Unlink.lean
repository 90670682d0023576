import BTServer.Timer.Signal

set_option autoImplicit false

namespace BTServer.Timer

open LinkedList BtTimerList

/-- `bt_timer_del` with a tick when `count` of the assignments of `list_del` have been made. -/
def delInterrupted (count fuel : Nat) (s : BtTimerList) (handle : Nat) : Outcome :=
  let writes := delStores .poison1 .poison2 s.links (.timer handle)
  (((s.storeAll (writes.take count)).andThen (·.btTimerFunc fuel)).andThen
    (·.storeAll (writes.drop count))).andThen fun s =>
      .returned { s with freed := s.freed ++ [handle] }

theorem Represents.next_prev {s : BtTimerList} {ts : List Listed} (rep : Represents s ts)
    (front back : List Listed) (split : ts = front ++ back) :
    (s.links (s.links (cursor back)).prev).next = cursor back := by
  have ring := rep.ring
  rw [split, List.map_append] at ring
  obtain ⟨-, -, forth, behind⟩ := ring.arcs _ _
  change (s.links (cursor back)).prev = _ at behind
  rw [behind]
  exact forth

theorem delStores_valid {s : BtTimerList} {front back : List Listed} {t : Listed}
    (rep : Represents s (front ++ t :: back)) :
    ∀ w ∈ delStores .poison1 .poison2 s.links t.ptr, w.node.Valid = true := by
  intro w member
  simp only [delStores, List.mem_cons, List.not_mem_nil, or_false] at member
  rcases member with rfl | rfl | rfl | rfl
  · refine pointers_valid (front ++ t :: back) _ ?_
    rw [rep.follows front t back rfl]
    refine cursor_mem ?_
    simp
  · exact pointers_valid (front ++ t :: back) _ (rep.prev_mem front (t :: back) rfl)
  · rfl
  · rfl

theorem delInterrupted_eq {s after : BtTimerList} {front back : List Listed} {t : Listed}
    {fuel count : Nat} (rep : Represents s (front ++ t :: back))
    (ran : BtTimerList.btTimerFunc fuel { s with
      links := stores s.links ((delStores .poison1 .poison2 s.links t.ptr).take count) } =
        .returned after) :
    delInterrupted count fuel s t.handle = .returned { after with
      links := stores after.links ((delStores .poison1 .poison2 s.links t.ptr).drop count)
      freed := after.freed ++ [t.handle] } := by
  have valid := delStores_valid rep
  have first := storeAll_valid s _ fun w member => valid w (List.mem_of_mem_take (i := count) member)
  have second := storeAll_valid after _ fun w member =>
    valid w (List.mem_of_mem_drop (i := count) member)
  simp only [delInterrupted, show Ptr.timer t.handle = t.ptr from rfl, first, Outcome.andThen, ran,
    second]

theorem btTimerDel_links {s : BtTimerList} {front back : List Listed} {t : Listed}
    (rep : Represents s (front ++ t :: back)) :
    s.btTimerDel t.handle = .returned { s with
      links := listDel .poison1 .poison2 s.links t.ptr
      deletions := s.deletions ++ [(s.links, t.ptr)]
      freed := s.freed ++ [t.handle] } := by
  obtain ⟨d, deletion, -⟩ := rep.listDel
  have good : ((s.links t.ptr).next.Valid && (s.links t.ptr).prev.Valid) = true := by
    by_contra bad
    simp only [BtTimerList.listDel, if_neg bad] at deletion
    exact Outcome.noConfusion deletion
  change (s.listDel t.ptr).andThen _ = _
  simp only [BtTimerList.listDel, if_pos good, Outcome.andThen]

theorem tick_keeps_undue {ts front back : List Listed} {t : Listed} (n : Nat)
    (ended : ((begin ts).steps n).todo = []) (ordered : Ordered ts)
    (split : ts = front ++ t :: back) (undue : ¬ t.Due) :
    ∃ front' back', ((begin ts).steps n).done = front' ++ t.counted :: back' := by
  have waits : (begin ts).Waits t t.interval := by
    refine .inl ⟨front, back, split, fun u member => ?_⟩
    have sorted := ordered.sorted
    rw [split] at sorted
    exact (List.pairwise_append.mp sorted).2.2 u (by simpa [begin] using member) t (by simp)
  rcases Sweep.steps_waits n waits undue with ⟨front', back', more, -⟩ | ⟨front', back', kept, -⟩
  · rw [ended] at more
    exact absurd more.symm (by simp)
  · exact ⟨front', back', kept⟩

theorem unlinking_interrupted {s after : BtTimerList} {front back : List Listed} {t : Listed}
    {fuel count : Nat} (rep : Represents s (front ++ t :: back))
    (ordered : Ordered (front ++ t :: back)) (left : Quiet front (t :: back))
    (right : Quiet (front ++ [t]) back) (ticked : s.btTimerFunc fuel = .returned after)
    (few : count < 2) :
    ∃ s' deleted, delInterrupted count fuel s t.handle = .returned s' ∧
      after.btTimerDel t.handle = .returned deleted ∧ s'.Alike deleted := by
  let writes := delStores .poison1 .poison2 s.links t.ptr
  let places : Ptr × Side → Prop := fun place => place = (cursor back, .prev) ∨ place = (t.ptr, .prev)
  have whole : front ++ t :: back = front ++ [t] ++ back := by simp
  have next : (s.links t.ptr).next = cursor back := rep.follows front t back rfl
  have covered : ∀ w ∈ writes.take count, places w.place := by
    intro w member
    have first : w ∈ writes.take 1 := (List.take_sublist_take_left (by omega)).subset member
    obtain rfl := List.mem_singleton.mp first
    exact .inl (by rw [Store.place, next])
  have start : Torn places s.num s { s with links := stores s.links (writes.take count) } s
      { s with links := stores s.links (writes.take count) } :=
    ⟨outside_stores _ _ _ covered, fun _ _ => ⟨rfl, rfl⟩, fun _ _ => rfl, ⟨rfl, rfl⟩, ⟨rfl, rfl⟩,
      rfl, rfl, ⟨rfl, rfl⟩⟩
  have loose : Loose places (begin (front ++ t :: back)) := by
    rintro p - side (here | here)
    · obtain ⟨rfl, rfl⟩ := Prod.mk.inj here
      exact ⟨rfl, .inl ⟨front ++ [t], back, whole, rfl, right⟩⟩
    · obtain ⟨rfl, rfl⟩ := Prod.mk.inj here
      exact ⟨rfl, .inl ⟨front, t :: back, rfl, rfl, left⟩⟩
  obtain ⟨after', ran, torn⟩ := btTimerFunc_torn rep ordered loose (rep.fresh) start
    rep.length_le ticked
  obtain ⟨ended, rep', -⟩ := ticked_represents rep ordered ticked
  obtain ⟨front', back', kept⟩ := tick_keeps_undue fuel ended ordered rfl (left.behind t rfl)
  have before : (s.links (cursor back)).prev = t.ptr := by
    have ring := rep.ring
    rw [whole, List.map_append] at ring
    have last : (s.links (cursor back)).prev = _ := ring.prev_of_split _ _
    rw [last]
    simp
  -- Both neighbours are still the ones that were read before the tick.
  have samePrev : (after.links t.ptr).prev = (s.links t.ptr).prev :=
    (torn.kept (t.ptr, .prev) (.inr rfl)).1
  have sameNext : (after.links t.ptr).next = (s.links t.ptr).next := by
    have kept := (torn.kept (cursor back, .prev) (.inl rfl)).1
    rw [pointer_prev, pointer_prev, before] at kept
    obtain ⟨front', back', split, here⟩ : ∃ front' back',
        ((begin (front ++ t :: back)).steps fuel).done = front' ++ back' ∧
          cursor back' = cursor back := by
      cases back with
      | nil => exact ⟨_, [], (List.append_nil _).symm, rfl⟩
      | cons u back =>
        obtain ⟨front', back', split⟩ := tick_keeps_undue fuel ended ordered whole
          (right.behind u rfl)
        exact ⟨front', u.counted :: back', split, rfl⟩
    have joined := rep'.next_prev front' back' split
    rw [here, kept] at joined
    rw [joined, next]
  have same : delStores .poison1 .poison2 after.links t.ptr = writes := by
    simp only [delStores, samePrev, sameNext, writes]
  have resumed := stores_resume s.links after.links after'.links (writes.take count)
    (writes.drop count) covered torn.outside torn.kept
  rw [List.take_append_drop, show stores after.links writes = _ from same ▸ stores_delStores _ _ _ _]
    at resumed
  rw [kept] at rep'
  refine ⟨_, _, delInterrupted_eq rep ran, btTimerDel_links (t := t.counted) rep', ?_⟩
  refine alike_of_fields resumed (torn.timers_eq rfl) (torn.num.2.trans torn.num.1.symm)
    torn.invoked torn.visited ?_
  simp only [torn.freed.1, torn.freed.2]
  rfl

theorem unlinked_interrupted {s deleted after : BtTimerList} {front back : List Listed} {t : Listed}
    {fuel count : Nat} (rep : Represents s (front ++ t :: back))
    (ordered : Ordered (front ++ t :: back))
    (deletion : s.btTimerDel t.handle = .returned deleted)
    (ticked : deleted.btTimerFunc fuel = .returned after) (many : 2 ≤ count) :
    ∃ s', delInterrupted count fuel s t.handle = .returned s' ∧ s'.Alike after := by
  let writes := delStores .poison1 .poison2 s.links t.ptr
  have links := btTimerDel_links rep
  rw [deletion] at links
  obtain rfl := Outcome.returned.inj links
  obtain ⟨d, again, rep', -⟩ := btTimerDel_correct rep
  rw [deletion] at again
  obtain rfl := Outcome.returned.inj again
  have rest : ∀ w ∈ writes.drop count, w.place.1 = t.ptr := by
    intro w member
    have late : w ∈ writes.drop 2 := (List.drop_sublist_drop_left _ many).subset member
    simp only [writes, delStores, List.drop_succ_cons, List.drop_zero, List.mem_cons,
      List.not_mem_nil, or_false] at late
    rcases late with rfl | rfl <;> rfl
  have finished (links : Links Ptr) (place : Ptr × Side) (away : ¬ place.1 = t.ptr) :
      pointer (stores links (writes.drop count)) place = pointer links place := by
    apply pointer_stores_untouched
    rintro w member rfl
    exact away (rest w member)
  have whole : stores (stores s.links (writes.take count)) (writes.drop count) =
      listDel .poison1 .poison2 s.links t.ptr := by
    rw [← stores_append, List.take_append_drop]
    exact stores_delStores _ _ _ _
  have gone := handle_absent rep.nodup
  have start : Torn (fun place => place.1 = t.ptr) t.handle
      { s with
        links := listDel .poison1 .poison2 s.links t.ptr
        deletions := s.deletions ++ [(s.links, t.ptr)]
        freed := s.freed ++ [t.handle] }
      { s with links := stores s.links (writes.take count) }
      { s with
        links := listDel .poison1 .poison2 s.links t.ptr
        deletions := s.deletions ++ [(s.links, t.ptr)]
        freed := s.freed ++ [t.handle] }
      { s with links := stores s.links (writes.take count) } := by
    refine ⟨fun place away => ?_, fun _ _ => ⟨rfl, rfl⟩, fun _ _ => rfl, ⟨rfl, rfl⟩, ⟨rfl, rfl⟩,
      rfl, rfl, ⟨rfl, rfl⟩⟩
    rw [← whole]
    exact (finished _ place away).symm
  have loose : Loose (fun place => place.1 = t.ptr) (begin (front ++ back)) := by
    intro p listed side here
    obtain rfl : p = t.ptr := here
    simp only [begin, Sweep.all, List.nil_append, Listed.ptr, List.mem_cons, reduceCtorEq,
      false_or] at listed
    exact absurd ((mem_pointers _ _).mp listed) gone
  have shorter : Ordered (front ++ back) := ordered.sublist (by simp)
  obtain ⟨after', ran, torn⟩ := btTimerFunc_torn rep' shorter loose gone start rep'.length_le ticked
  refine ⟨_, delInterrupted_eq rep ran, alike_of_fields (links_ext fun place => ?_)
    (torn.timers_eq rfl) (torn.num.2.trans torn.num.1.symm) torn.invoked torn.visited ?_⟩
  · by_cases here : place.1 = t.ptr
    · obtain ⟨first, second⟩ := torn.kept place here
      rw [pointer_stores_congr _ second, whole, first]
    · rw [finished _ place here, torn.outside place here]
  · simp only [torn.freed.1, torn.freed.2]

/-- A tick comes before the deletion it interrupts until the node is unlinked, and behind it from
then on. -/
theorem del_interrupted_by_tick {s : BtTimerList} (reachable : Reachable s)
    {front back : List Listed} {t : Listed} (rep : Represents s (front ++ t :: back))
    (fuel count : Nat) :
    (count < 2 → Quiet front (t :: back) → Quiet (front ++ [t]) back →
      ∀ after, s.btTimerFunc fuel = .returned after →
        ∃ s' deleted, delInterrupted count fuel s t.handle = .returned s' ∧
          after.btTimerDel t.handle = .returned deleted ∧ s'.Alike deleted) ∧
      (2 ≤ count → ∀ deleted after, s.btTimerDel t.handle = .returned deleted →
        deleted.btTimerFunc fuel = .returned after →
        ∃ s', delInterrupted count fuel s t.handle = .returned s' ∧ s'.Alike after) := by
  have ordered := reachable.ordered rep
  refine ⟨fun few left right after ticked => ?_, fun many deleted after deletion ticked => ?_⟩
  · exact unlinking_interrupted rep ordered left right ticked few
  · exact unlinked_interrupted rep ordered deletion ticked many

theorem del_interrupted_of_two :
    let s := (btTimerInit.btTimerAdd 7 0 3 .btTimerSingle).btTimerAdd 8 0 9 .btTimerRepeat
    ∃ s' deleted, delInterrupted 1 5 s 0 = .returned s' ∧
      (s.btTimerFunc 5).state.btTimerDel 0 = .returned deleted ∧ s'.Alike deleted := by
  have rep : Represents _ ([] ++ newTimer 0 7 0 3 .btTimerSingle :: [newTimer 1 8 0 9
      .btTimerRepeat]) :=
    btTimerAdd_correct (btTimerAdd_correct btTimerInit_represents 7 0 3 .btTimerSingle) 8 0 9
      .btTimerRepeat
  refine (del_interrupted_by_tick ⟨0, [.add 7 0 3 .btTimerSingle, .add 8 0 9 .btTimerRepeat], rfl⟩
    rep 5 1).1 (by decide) ?_ ?_ _ rfl
  · exact ⟨by decide, by decide⟩
  · exact ⟨by decide, by decide⟩

end BTServer.Timer
