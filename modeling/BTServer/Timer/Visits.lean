import BTServer.Timer.Tick

set_option autoImplicit false

namespace BTServer.Timer

open BtTimerList

structure Trace where
  visits : Nat
  calls : Nat
  kept : List Listed

def Sweep.trace (w : Sweep) (handle : Nat) : Trace :=
  { visits := w.visited.count handle
    calls := w.invoked.countP fun call => call.handle = handle
    kept := w.done.filter fun t => t.handle = handle }

def Listed.after (t : Listed) : Listed := if t.Due then t.reset else t.counted

def Trace.pass (trace : Trace) (t : Listed) : Trace :=
  { visits := trace.visits + 1
    calls := trace.calls + if t.Due then 1 else 0
    kept := trace.kept ++ if t.Due ∧ t.type = .btTimerSingle then [] else [t.after] }

theorem Sweep.step_sublist (w : Sweep) (t : Listed) (rest : List Listed)
    (next : w.todo = t :: rest) : rest.Sublist w.step.todo := by
  have inserted : rest.Sublist (insertTimer t.reset rest) := by
    conv_lhs => rw [← List.takeWhile_append_dropWhile (p := notAfter t) (l := rest)]
    exact List.Sublist.append_left (List.sublist_cons_self _ _) _
  rcases w.step_cases t rest next with
    ⟨-, result⟩ | ⟨-, -, result⟩ | ⟨-, -, -, result⟩ | ⟨-, -, -, result⟩
  · rw [result]
  · rw [result]
  · rw [result]
  · rw [result]
    exact inserted

theorem Sweep.step_todo (w : Sweep) (t : Listed) (rest : List Listed)
    (next : w.todo = t :: rest) : w.step.todo = rest ∨
      (w.step.todo = insertTimer t.reset rest ∧ t.Due ∧ t.type = .btTimerRepeat) := by
  rcases w.step_cases t rest next with
    ⟨-, result⟩ | ⟨-, -, result⟩ | ⟨-, -, -, result⟩ | ⟨due, again, -, result⟩
  · exact .inl (by rw [result])
  · exact .inl (by rw [result])
  · exact .inl (by rw [result])
  · exact .inr ⟨by rw [result], due, again⟩

theorem insertTimer_handles (t : Listed) (ts : List Listed) :
    ((insertTimer t.reset ts).map Listed.handle).Perm ((t :: ts).map Listed.handle) :=
  (insertTimer_perm t.reset ts).map Listed.handle

theorem Sweep.step_nodup (w : Sweep) (nodup : (w.todo.map Listed.handle).Nodup) :
    (w.step.todo.map Listed.handle).Nodup := by
  cases next : w.todo with
  | nil => simp [next]
  | cons t rest =>
    rw [next] at nodup
    rcases w.step_todo t rest next with same | ⟨same, -, -⟩
    · rw [same]
      exact (List.nodup_cons.mp nodup).2
    · rw [same]
      exact (insertTimer_handles t rest).nodup_iff.mpr nodup

theorem Sweep.step_absent (w : Sweep) (handle : Nat)
    (absent : handle ∉ w.todo.map Listed.handle) :
    handle ∉ w.step.todo.map Listed.handle := by
  cases next : w.todo with
  | nil => simp [next]
  | cons t rest =>
    rw [next] at absent
    rcases w.step_todo t rest next with same | ⟨same, -, -⟩
    · rw [same]
      exact fun member => absent (List.mem_cons_of_mem _ member)
    · rw [same, (insertTimer_handles t rest).mem_iff]
      exact absent

theorem Sweep.step_trace_other (w : Sweep) (t : Listed) (rest : List Listed) (handle : Nat)
    (next : w.todo = t :: rest) (other : t.handle ≠ handle) :
    w.step.trace handle = w.trace handle := by
  rcases w.step_cases t rest next with
    ⟨-, result⟩ | ⟨-, -, result⟩ | ⟨-, -, -, result⟩ | ⟨-, -, -, result⟩
  · simp [result, trace, other]
  · simp [result, trace, other]
  · simp [result, trace, other]
  · simp [result, trace, other]

theorem Sweep.steps_trace_absent (n : Nat) (w : Sweep) (handle : Nat)
    (absent : handle ∉ w.todo.map Listed.handle) : (w.steps n).trace handle = w.trace handle := by
  induction n generalizing w with
  | zero => rfl
  | succ n ih =>
    rw [steps, ih w.step (w.step_absent handle absent)]
    cases next : w.todo with
    | nil => rw [w.step_of_nil next]
    | cons t rest =>
      refine w.step_trace_other t rest handle next fun same => absent ?_
      simp [next, same]

/-- Of the timers of interval `k` still ahead, none that will be re-inserted has another
behind it. -/
def Calm (k : UInt32) (ts : List Listed) : Prop :=
  (ts.filter fun t => t.interval = k).Pairwise fun t _ => ¬ (t.type = .btTimerRepeat ∧ t.Due)

theorem Calm.sublist {k : UInt32} {ts us : List Listed} (calm : Calm k ts)
    (sub : us.Sublist ts) : Calm k us :=
  List.Pairwise.sublist (sub.filter _) calm

theorem Calm.insert {k : UInt32} {t : Listed} {ts : List Listed} (calm : Calm k ts)
    (other : t.interval ≠ k) : Calm k (insertTimer t ts) := by
  have same : (insertTimer t ts).filter (fun u => u.interval = k) =
      ts.filter fun u => u.interval = k := by
    rw [insertTimer, List.filter_append, List.filter_cons_of_neg (by simpa using other),
      ← List.filter_append, List.takeWhile_append_dropWhile]
  rwa [Calm, same]

def Once (t : Listed) (ts : List Listed) : Prop :=
  t.type = .btTimerSingle ∨ ¬ t.Due ∨ Calm t.interval ts

theorem Sweep.step_trace_once (w : Sweep) (t : Listed) (rest : List Listed)
    (next : w.todo = t :: rest) (sorted : ∀ u ∈ rest, t.interval ≤ u.interval)
    (once : Once t (t :: rest)) :
    w.step.todo = rest ∧ w.step.trace t.handle = (w.trace t.handle).pass t := by
  rcases w.step_cases t rest next with
    ⟨waiting, result⟩ | ⟨due, single, result⟩ | ⟨due, again, -, result⟩ |
      ⟨due, again, others, -⟩
  · simp [result, trace, Trace.pass, Listed.after, waiting, List.filter_append]
  · simp [result, trace, Trace.pass, due, single]
  · simp [result, trace, Trace.pass, Listed.after, due, again, List.filter_append]
  · exfalso
    rcases once with single | waiting | calm
    · rw [again] at single
      exact BtTimerType.noConfusion single
    · exact waiting due
    · obtain ⟨u, member⟩ := List.exists_mem_of_ne_nil _ others
      have inside := (List.takeWhile_sublist _).subset member
      have below : u.interval ≤ t.interval := by
        simpa [notAfter] using List.all_eq_true.mp List.all_takeWhile u member
      have same : u.interval = t.interval := UInt32.le_antisymm below (sorted u inside)
      rw [Calm, List.filter_cons_of_pos (by simp), List.pairwise_cons] at calm
      exact calm.1 u (by simp [inside, same]) ⟨again, due⟩

theorem Sweep.step_once (w : Sweep) (t u : Listed) (rest : List Listed)
    (next : w.todo = t :: rest) (member : u ∈ rest) (once : Once u w.todo) :
    Once u w.step.todo := by
  rcases once with single | waiting | calm
  · exact .inl single
  · exact .inr (.inl waiting)
  · refine .inr (.inr ?_)
    rw [next] at calm
    have tail : Calm u.interval rest := calm.sublist (List.sublist_cons_self _ _)
    rcases w.step_todo t rest next with same | ⟨same, due, again⟩
    · rwa [same]
    · rw [same]
      refine tail.insert fun equal => ?_
      have equal' : t.interval = u.interval := equal
      rw [Calm, List.filter_cons_of_pos (by simp [equal']), List.pairwise_cons] at calm
      exact calm.1 u (by simp [member]) ⟨again, due⟩

theorem Sweep.steps_trace_once (n : Nat) (w : Sweep) (t : Listed) (ordered : Ordered w.all)
    (nodup : (w.todo.map Listed.handle).Nodup) (member : t ∈ w.todo) (once : Once t w.todo)
    (ended : (w.steps n).todo = []) :
    (w.steps n).trace t.handle = (w.trace t.handle).pass t := by
  induction n generalizing w with
  | zero =>
    rw [show w.todo = [] from ended] at member
    exact absurd member List.not_mem_nil
  | succ n ih =>
    obtain ⟨x, rest, next⟩ := List.exists_cons_of_ne_nil (List.ne_nil_of_mem member)
    have sorted : ∀ u ∈ rest, x.interval ≤ u.interval := by
      have whole := ordered.sorted
      rw [all, next] at whole
      exact (List.pairwise_cons.mp (List.pairwise_append.mp whole).2.1).1
    have fresh : x.handle ∉ rest.map Listed.handle := by
      rw [next] at nodup
      exact (List.nodup_cons.mp nodup).1
    rw [steps]
    by_cases head : t = x
    · subst head
      obtain ⟨todo, passed⟩ := w.step_trace_once t rest next sorted (next ▸ once)
      rw [steps_trace_absent n w.step t.handle (by rwa [todo]), passed]
    · have inside : t ∈ rest := by
        rw [next] at member
        exact (List.mem_cons.mp member).resolve_left head
      have other : x.handle ≠ t.handle := by
        intro same
        exact fresh (same ▸ List.mem_map_of_mem inside)
      rw [ih w.step (w.step_ordered ordered) (w.step_nodup nodup)
        ((w.step_sublist x rest next).subset inside) (w.step_once x t rest next inside once) ended,
        w.step_trace_other x rest t.handle next other]

theorem Sweep.step_visits_head (w : Sweep) (t : Listed) (rest : List Listed)
    (next : w.todo = t :: rest) :
    (w.step.trace t.handle).visits = (w.trace t.handle).visits + 1 := by
  rcases w.step_cases t rest next with
    ⟨-, result⟩ | ⟨-, -, result⟩ | ⟨-, -, -, result⟩ | ⟨-, -, -, result⟩
  · simp [result, trace]
  · simp [result, trace]
  · simp [result, trace]
  · simp [result, trace]

theorem Sweep.step_visits_le (w : Sweep) (handle : Nat) :
    (w.trace handle).visits ≤ (w.step.trace handle).visits := by
  cases next : w.todo with
  | nil => rw [w.step_of_nil next]
  | cons t rest =>
    by_cases same : t.handle = handle
    · rw [← same, w.step_visits_head t rest next]
      exact Nat.le_succ _
    · rw [w.step_trace_other t rest handle next same]

theorem Sweep.steps_visits_le (n : Nat) (w : Sweep) (handle : Nat) :
    (w.trace handle).visits ≤ ((w.steps n).trace handle).visits := by
  induction n generalizing w with
  | zero => exact le_rfl
  | succ n ih => exact (w.step_visits_le handle).trans (ih w.step)

-- A tick that ends has met every timer ahead of the cursor.
theorem Sweep.steps_meets (n : Nat) (w : Sweep) (t : Listed) (member : t ∈ w.todo)
    (ended : (w.steps n).todo = []) :
    ∃ j k rest, (w.steps j).todo = t :: rest ∧ w.steps n = (w.steps j).step.steps k := by
  induction n generalizing w with
  | zero =>
    rw [show w.todo = [] from ended] at member
    exact absurd member List.not_mem_nil
  | succ n ih =>
    obtain ⟨x, rest, next⟩ := List.exists_cons_of_ne_nil (List.ne_nil_of_mem member)
    rw [next, List.mem_cons] at member
    rcases member with rfl | member
    · exact ⟨0, n, rest, next, rfl⟩
    · obtain ⟨j, k, rest', todo, result⟩ :=
        ih w.step ((w.step_sublist x rest next).subset member) ended
      exact ⟨j + 1, k, rest', todo, result⟩

theorem Sweep.steps_visited (n : Nat) (w : Sweep) (t : Listed) (member : t ∈ w.todo)
    (ended : (w.steps n).todo = []) :
    (w.trace t.handle).visits + 1 ≤ ((w.steps n).trace t.handle).visits := by
  obtain ⟨j, k, rest, next, result⟩ := w.steps_meets n t member ended
  calc (w.trace t.handle).visits + 1
      ≤ ((w.steps j).trace t.handle).visits + 1 :=
        Nat.add_le_add_right (w.steps_visits_le j t.handle) 1
    _ = ((w.steps j).step.trace t.handle).visits :=
        ((w.steps j).step_visits_head t rest next).symm
    _ ≤ ((w.steps n).trace t.handle).visits := by
        rw [result]
        exact (w.steps j).step.steps_visits_le k t.handle

theorem Sweep.steps_visited_twice (n : Nat) (w : Sweep) (t u : Listed)
    (pair : [t, u].Sublist w.todo) (again : t.type = .btTimerRepeat) (due : t.Due)
    (same : u.interval = t.interval) (ordered : Ordered w.all) (ended : (w.steps n).todo = []) :
    (w.trace t.handle).visits + 2 ≤ ((w.steps n).trace t.handle).visits := by
  induction n generalizing w with
  | zero =>
    rw [show w.todo = [] from ended] at pair
    exact absurd pair.length_le (by simp)
  | succ n ih =>
    obtain ⟨x, rest, next⟩ := List.exists_cons_of_ne_nil
      (List.ne_nil_of_mem (pair.subset List.mem_cons_self))
    rw [next] at pair
    cases pair with
    | cons _ pair =>
      have later := ih w.step (pair.trans (w.step_sublist x rest next)) (w.step_ordered ordered)
        ended
      exact (Nat.add_le_add_right (w.step_visits_le t.handle) 2).trans later
    | cons_cons _ pair =>
      have inside : u ∈ rest := List.singleton_sublist.mp pair
      have back : t.reset ∈ w.step.todo := by
        rcases w.step_cases t rest next with
          ⟨waiting, -⟩ | ⟨-, single, -⟩ | ⟨-, -, alone, -⟩ | ⟨-, -, -, result⟩
        · exact absurd due waiting
        · rw [again] at single
          exact BtTimerType.noConfusion single
        · have whole := ordered.sorted
          rw [Sweep.all, next] at whole
          have tail := (List.pairwise_cons.mp (List.pairwise_append.mp whole).2.1).2
          have later := sorted_dropWhile t rest tail u
            (by rwa [dropWhile_of_takeWhile_nil t rest alone])
          rw [same] at later
          exact absurd later (UInt32.lt_irrefl _)
        · rw [result]
          exact (mem_insertTimer _ _ _).mpr (.inl rfl)
      have later := steps_visited n w.step t.reset back ended
      rw [Listed.reset_handle, w.step_visits_head t rest next] at later
      exact later

theorem Sweep.step_source (w : Sweep) (u : Listed) (member : u ∈ w.step.all) :
    ∃ t ∈ w.all, t.reset = u.reset := by
  cases next : w.todo with
  | nil =>
    rw [w.step_of_nil next] at member
    exact ⟨u, member, rfl⟩
  | cons t rest =>
    have here : t ∈ w.all := by simp [all, next]
    have source : u ∈ w.done ∨ u ∈ rest ∨ u = t.counted ∨ u = t.reset := by
      rcases w.step_cases t rest next with
        ⟨-, result⟩ | ⟨-, -, result⟩ | ⟨-, -, -, result⟩ | ⟨-, -, -, result⟩ <;>
      · simp only [result, all, List.mem_append, List.mem_singleton, mem_insertTimer] at member
        tauto
    rcases source with inside | inside | rfl | rfl
    · exact ⟨u, by simp [all, inside], rfl⟩
    · exact ⟨u, by simp [all, next, inside], rfl⟩
    · exact ⟨t, here, rfl⟩
    · exact ⟨t, here, rfl⟩

theorem Sweep.steps_reset (n : Nat) (w : Sweep) (u : Listed) (member : u ∈ (w.steps n).all) :
    ∃ t ∈ w.all, t.reset = u.reset := by
  induction n generalizing w with
  | zero => exact ⟨u, member, rfl⟩
  | succ n ih =>
    obtain ⟨v, inside, later⟩ := ih w.step member
    obtain ⟨t, first, earlier⟩ := w.step_source v inside
    exact ⟨t, first, earlier.trans later⟩

theorem Sweep.steps_source (n : Nat) (w : Sweep) (u : Listed) (member : u ∈ (w.steps n).all) :
    ∃ t ∈ w.all, t.handle = u.handle ∧ t.type = u.type ∧ t.interval = u.interval := by
  obtain ⟨t, inside, same⟩ := w.steps_reset n u member
  obtain ⟨handle, type, interval, -⟩ := Listed.eq_of_reset same
  exact ⟨t, inside, handle, type, interval⟩

theorem Sweep.steps_keep_repeat (n : Nat) (w : Sweep) (t : Listed) (member : t ∈ w.all)
    (again : t.type = .btTimerRepeat) : ∃ u ∈ (w.steps n).all, u.handle = t.handle := by
  induction n generalizing w t with
  | zero => exact ⟨t, member, rfl⟩
  | succ n ih =>
    cases next : w.todo with
    | nil =>
      rw [steps_of_nil _ w next]
      exact ⟨t, member, rfl⟩
    | cons x rest =>
      have kept : t ∈ w.step.all ∨ (t = x ∧ (t.counted ∈ w.step.all ∨ t.reset ∈ w.step.all)) := by
        simp only [all, next, List.mem_append, List.mem_cons] at member
        rcases w.step_cases x rest next with
          ⟨-, result⟩ | ⟨-, single, result⟩ | ⟨-, -, -, result⟩ | ⟨-, -, -, result⟩
        · simp only [result, all, List.mem_append, List.mem_singleton]
          rcases member with inside | rfl | inside <;> simp [*]
        · simp only [result, all, List.mem_append]
          rcases member with inside | rfl | inside
          · simp [inside]
          · rw [again] at single
            exact BtTimerType.noConfusion single
          · simp [inside]
        · simp only [result, all, List.mem_append, List.mem_singleton]
          rcases member with inside | rfl | inside <;> simp [*]
        · simp only [result, all, List.mem_append, mem_insertTimer]
          rcases member with inside | rfl | inside <;> simp [*]
      rcases kept with inside | ⟨-, inside | inside⟩
      · exact ih w.step t inside again
      · exact ih w.step t.counted inside again
      · exact ih w.step t.reset inside again

end BTServer.Timer
