import BTServer.Timer.Single
import Mathlib.Data.List.Dedup
import Mathlib.Tactic.Ring

set_option autoImplicit false

namespace BTServer.Timer

open LinkedList BtTimerList

-- A repeating timer is inserted again after each run of its callback.
def Op.inserts (s s' : BtTimerList) : Op → List Nat
  | .add _ _ _ _ => [s.num]
  | .update handle => [handle]
  | .del _ => []
  | .tick => ((s'.invoked.drop s.invoked.length).map Invocation.handle).filter fun handle =>
      (s.timers handle).type = .btTimerRepeat

def insertions (fuel : Nat) : BtTimerList → List Op → List Nat
  | _, [] => []
  | s, op :: ops =>
    op.inserts s (exec fuel s op).state ++ insertions fuel (exec fuel s op).state ops

-- `dedup` keeps the last entry of each handle.
structure BtTimerList.Queue (s : BtTimerList) (log handles : List Nat) : Prop where
  ring : Ring s.links .timerList (handles.map Ptr.timer)
  nodup : handles.Nodup
  sorted : handles.Pairwise fun h k => (s.timers h).interval ≤ (s.timers k).interval
  ties : ∀ k, (handles.filter fun h => (s.timers h).interval = k).Sublist log.dedup
  young : ∀ h ∈ handles, (s.timers h).elapse.toNat < max 1 (s.timers h).interval.toNat

theorem dedup_append_singleton (log : List Nat) (handle : Nat) :
    (log ++ [handle]).dedup = log.dedup.filter (· ≠ handle) ++ [handle] := by
  induction log with
  | nil => simp
  | cons x log ih =>
    by_cases later : x ∈ log
    · rw [List.cons_append, List.dedup_cons_of_mem (by simp [later]), ih,
        List.dedup_cons_of_mem later]
    · rw [List.dedup_cons_of_notMem later, List.cons_append]
      by_cases same : x = handle
      · rw [List.dedup_cons_of_mem (by simp [same]), ih, List.filter_cons_of_neg (by simp [same])]
      · rw [List.dedup_cons_of_notMem (by simp [later, same]), ih,
          List.filter_cons_of_pos (by simp [same]), List.cons_append]

def InOrder (log : List Nat) (ts : List Listed) : Prop :=
  ∀ k, ((ts.filter fun t => t.interval = k).map Listed.handle).Sublist log.dedup

theorem InOrder.sublist {log : List Nat} {ts us : List Listed} (inOrder : InOrder log ts)
    (sub : us.Sublist ts) : InOrder log us :=
  fun k => ((sub.filter _).map _).trans (inOrder k)

theorem InOrder.congr {log : List Nat} {ts us : List Listed} (inOrder : InOrder log ts)
    (same : us.map (fun t => (t.handle, t.interval)) = ts.map fun t => (t.handle, t.interval)) :
    InOrder log us := by
  have pairs (vs : List Listed) (k : UInt32) : (vs.filter fun t => t.interval = k).map Listed.handle =
      ((vs.map fun t => (t.handle, t.interval)).filter fun pair => pair.2 = k).map Prod.fst := by
    simp [List.filter_map, Function.comp_def]
  intro k
  rw [pairs, same, ← pairs]
  exact inOrder k

theorem insertTimer_filter (t : Listed) (ts : List Listed)
    (sorted : ts.Pairwise fun t u => t.interval ≤ u.interval) (k : UInt32) :
    (insertTimer t ts).filter (fun u => u.interval = k) =
      (ts.filter fun u => u.interval = k) ++ if t.interval = k then [t] else [] := by
  have split : ts.filter (fun u => u.interval = k) =
      (ts.takeWhile (notAfter t)).filter (fun u => u.interval = k) ++
        (ts.dropWhile (notAfter t)).filter fun u => u.interval = k := by
    rw [← List.filter_append, List.takeWhile_append_dropWhile]
  rw [insertTimer, List.filter_append, split]
  by_cases same : t.interval = k
  · have none : (ts.dropWhile (notAfter t)).filter (fun u => u.interval = k) = [] := by
      rw [List.filter_eq_nil_iff]
      intro u member equal
      have later := sorted_dropWhile t ts sorted u member
      rw [same, of_decide_eq_true equal] at later
      exact UInt32.lt_irrefl _ later
    rw [List.filter_cons_of_pos (by simp [same]), none, if_pos same, List.append_nil]
  · rw [List.filter_cons_of_neg (by simp [same]), if_neg same, List.append_nil]

theorem InOrder.insert {log : List Nat} {ts : List Listed} (inOrder : InOrder log ts) (t : Listed)
    (sorted : ts.Pairwise fun t u => t.interval ≤ u.interval)
    (fresh : t.handle ∉ ts.map Listed.handle) :
    InOrder (log ++ [t.handle]) (insertTimer t ts) := by
  intro k
  have others : ((ts.filter fun u => u.interval = k).map Listed.handle).Sublist
      (log.dedup.filter (· ≠ t.handle)) := by
    have kept : ((ts.filter fun u => u.interval = k).map Listed.handle).filter (· ≠ t.handle) =
        (ts.filter fun u => u.interval = k).map Listed.handle := by
      rw [List.filter_eq_self]
      intro handle member
      obtain ⟨u, inside, rfl⟩ := List.mem_map.mp member
      apply decide_eq_true
      intro same
      exact fresh (same ▸ List.mem_map_of_mem (List.mem_of_mem_filter inside))
    rw [← kept]
    exact (inOrder k).filter _
  rw [insertTimer_filter t ts sorted, dedup_append_singleton, List.map_append]
  apply others.append
  split
  next => exact List.Sublist.refl _
  next => exact List.nil_sublist _

theorem Sweep.step_all (w : Sweep) (t : Listed) (rest : List Listed) (next : w.todo = t :: rest)
    (ordered : Ordered w.all) :
    (w.step.all = w.done ++ t.counted :: rest ∧ w.step.invoked = w.invoked) ∨
      (t.type = .btTimerSingle ∧ w.step.all = w.done ++ rest ∧
        w.step.invoked = w.invoked ++ [t.invocation]) ∨
      (t.type = .btTimerRepeat ∧ w.step.all = insertTimer t.reset (w.done ++ rest) ∧
        w.step.invoked = w.invoked ++ [t.invocation]) := by
  have passed : ∀ u ∈ w.done, u.interval ≤ t.reset.interval := by
    have sorted := ordered.sorted
    rw [all, next] at sorted
    exact fun u member => (List.pairwise_append.mp sorted).2.2 u member t (by simp)
  rcases w.step_cases t rest next with
    ⟨-, result⟩ | ⟨-, single, result⟩ | ⟨-, again, alone, result⟩ | ⟨-, again, -, result⟩
  · exact .inl (by simp [result, all])
  · exact .inr (.inl ⟨single, by simp [result, all]⟩)
  · refine .inr (.inr ⟨again, ?_, by rw [result]⟩)
    have first : insertTimer t.reset rest = t.reset :: rest := by
      have none : rest.takeWhile (notAfter t.reset) = [] := alone
      rw [insertTimer, none, dropWhile_of_takeWhile_nil _ _ none]
      rfl
    rw [insertTimer_behind _ _ _ passed, first, result, all]
    simp
  · refine .inr (.inr ⟨again, ?_, by rw [result]⟩)
    rw [insertTimer_behind _ _ _ passed, result, all]

def Sweep.handles (w : Sweep) : List Nat := w.all.map Listed.handle

theorem Sweep.step_handles (w : Sweep) (ordered : Ordered w.all) (nodup : w.handles.Nodup) :
    w.step.handles.Nodup := by
  cases next : w.todo with
  | nil => rwa [w.step_of_nil next]
  | cons t rest =>
    rw [handles, all, next] at nodup
    rcases w.step_all t rest next ordered with
      ⟨whole, -⟩ | ⟨-, whole, -⟩ | ⟨-, whole, -⟩
    · simpa [handles, whole] using nodup
    · rw [handles, whole]
      exact nodup.sublist ((by simp : (w.done ++ rest).Sublist (w.done ++ t :: rest)).map _)
    · rw [handles, whole, (insertTimer_handles t _).nodup_iff]
      simpa [List.nodup_middle] using nodup

-- The repeating timers among those the sweep has run, for a predicate that tells them.
def Sweep.rearmed (w : Sweep) (again : Nat → Bool) : List Nat :=
  (w.invoked.map Invocation.handle).filter again

theorem Sweep.step_inOrder (w : Sweep) (log : List Nat) (again : Nat → Bool)
    (ordered : Ordered w.all) (nodup : w.handles.Nodup)
    (types : ∀ t ∈ w.all, again t.handle = true ↔ t.type = .btTimerRepeat)
    (inOrder : InOrder (log ++ w.rearmed again) w.all) :
    InOrder (log ++ w.step.rearmed again) w.step.all := by
  cases next : w.todo with
  | nil => rwa [w.step_of_nil next]
  | cons t rest =>
    have kind := types t (by simp [all, next])
    have others : InOrder (log ++ w.rearmed again) (w.done ++ rest) :=
      inOrder.sublist (by simp [all, next])
    have fresh : t.handle ∉ (w.done ++ rest).map Listed.handle := by
      rw [handles, all, next] at nodup
      exact handle_absent nodup
    have sorted : (w.done ++ rest).Pairwise fun t u => t.interval ≤ u.interval :=
      ordered.sorted.sublist (by simp [all, next])
    rcases w.step_all t rest next ordered with
      ⟨whole, calls⟩ | ⟨single, whole, calls⟩ | ⟨repeats, whole, calls⟩
    · rw [rearmed, calls, whole]
      exact inOrder.congr (by simp [all, next])
    · have silent : again t.handle = false := by
        rw [← Bool.not_eq_true, kind, single]
        simp
      rw [rearmed, calls, whole]
      simpa [rearmed, silent] using others
    · rw [rearmed, calls, whole]
      have inserted := others.insert t.reset sorted fresh
      simpa [rearmed, kind.mpr repeats] using inserted

theorem Sweep.steps_inOrder (n : Nat) (w : Sweep) (log : List Nat) (again : Nat → Bool)
    (ordered : Ordered w.all) (nodup : w.handles.Nodup)
    (types : ∀ t ∈ w.all, again t.handle = true ↔ t.type = .btTimerRepeat)
    (inOrder : InOrder (log ++ w.rearmed again) w.all) :
    InOrder (log ++ (w.steps n).rearmed again) (w.steps n).all := by
  induction n generalizing w with
  | zero => exact inOrder
  | succ n ih =>
    apply ih w.step (w.step_ordered ordered) (w.step_handles ordered nodup)
    · intro u member
      obtain ⟨t, inside, handle, type, -⟩ := steps_source 1 w u member
      rw [← handle, ← type]
      exact types t inside
    · exact w.step_inOrder log again ordered nodup types inOrder

theorem insertions_append (fuel : Nat) (s s' : BtTimerList) (ops : List Op) (op : Op)
    (ran : run fuel s ops = .returned s') :
    insertions fuel s (ops ++ [op]) =
      insertions fuel s ops ++ op.inserts s' (exec fuel s' op).state := by
  induction ops generalizing s with
  | nil =>
    obtain rfl := Outcome.returned.inj ran
    simp [insertions]
  | cons first ops ih =>
    rw [run] at ran
    cases result : exec fuel s first with
    | returned s₁ =>
      rw [result] at ran
      rw [List.cons_append, insertions, insertions, result, show (Outcome.returned s₁).state = s₁
        from rfl, ih s₁ ran, List.append_assoc]
    | fault s₁ => simp [result, Outcome.andThen] at ran
    | running s₁ => simp [result, Outcome.andThen] at ran

theorem tick_inserts (fuel : Nat) {s : BtTimerList} {ts : List Listed} (rep : Represents s ts)
    (ordered : Ordered ts) : Op.inserts s (exec fuel s .tick).state .tick =
      ((begin ts).steps fuel).rearmed fun handle => (s.timers handle).type = .btTimerRepeat := by
  obtain ⟨after, agrees, result⟩ := btTimerFunc_correct fuel rep ordered
  have state : (exec fuel s .tick).state = after := by
    rw [exec, result]
    split <;> rfl
  rw [state, Op.inserts, agrees.invoked, List.drop_left, Sweep.rearmed]

theorem run_inOrder (fuel : Nat) (ops : List Op) (s : BtTimerList)
    (ran : run fuel btTimerInit ops = .returned s) :
    ∃ ts, Represents s ts ∧ Ordered ts ∧ InOrder (insertions fuel btTimerInit ops) ts := by
  apply run_invariant fuel (fun ops ts => InOrder (insertions fuel btTimerInit ops) ts)
  · intro k
    exact List.nil_sublist _
  · intro ops s ts op ts' ran rep ordered inOrder effect ordered'
    rw [insertions_append fuel _ s ops op ran]
    cases effect with
    | add func data interval type =>
      obtain ⟨-, -, -, num⟩ := run_represents ran
      rw [← num]
      exact inOrder.insert _ ordered.sorted rep.fresh
    | update front back t =>
      apply InOrder.insert (inOrder.sublist (by simp)) t.reset (ordered.sorted.sublist (by simp))
      rw [Listed.reset_handle]
      exact handle_absent rep.nodup
    | del front back t =>
      rw [Op.inserts, List.append_nil]
      exact inOrder.sublist (by simp)
    | tick ts ended =>
      rw [tick_inserts fuel rep ordered]
      have swept := (begin ts).steps_inOrder fuel _
        (fun handle => (s.timers handle).type = .btTimerRepeat) ordered rep.nodup
        (fun t member => by rw [rep.fields t member]; simp [Listed.type])
        (show InOrder (insertions fuel btTimerInit ops ++ []) ts by rwa [List.append_nil])
      rwa [Sweep.all, ended, List.append_nil] at swept
  · exact ran

theorem Sweep.step_invoked (w : Sweep) : w.invoked <+: w.step.invoked := by
  cases next : w.todo with
  | nil => simp [w.step_of_nil next]
  | cons t rest =>
    rcases w.step_cases t rest next with
      ⟨-, result⟩ | ⟨-, -, result⟩ | ⟨-, -, -, result⟩ | ⟨-, -, -, result⟩
    · simp [result]
    · rw [result]
      exact List.prefix_append _ _
    · rw [result]
      exact List.prefix_append _ _
    · rw [result]
      exact List.prefix_append _ _

theorem Sweep.steps_invoked (n : Nat) (w : Sweep) : w.invoked <+: (w.steps n).invoked := by
  induction n generalizing w with
  | zero => exact List.prefix_rfl
  | succ n ih => exact w.step_invoked.trans (ih w.step)

theorem Sweep.steps_called (n : Nat) (w : Sweep) (t : Listed) (member : t ∈ w.todo) (due : t.Due)
    (ended : (w.steps n).todo = []) : t.invocation ∈ (w.steps n).invoked := by
  obtain ⟨j, k, rest, next, swept⟩ := w.steps_meets n t member ended
  rw [swept]
  apply ((w.steps j).step.steps_invoked k).subset
  rcases (w.steps j).step_cases t rest next with
    ⟨waiting, -⟩ | ⟨-, -, result⟩ | ⟨-, -, -, result⟩ | ⟨-, -, -, result⟩
  · exact absurd due waiting
  · simp [result]
  · simp [result]
  · simp [result]

section Ended

variable {ts : List Listed} (ordered : Ordered ts) (nodup : (ts.map Listed.handle).Nodup) (n : Nat)
  (ended : ((begin ts).steps n).todo = []) (t : Listed) (member : t ∈ ts)

include ordered nodup ended member

theorem waiting_trace (waiting : ¬ t.Due) :
    ((begin ts).steps n).trace t.handle = Trace.pass ⟨0, 0, []⟩ t := by
  rw [← begin_trace ts t.handle]
  exact (begin ts).steps_trace_once n t (by simpa [begin, Sweep.all] using ordered) nodup member
    (.inr (.inl waiting)) ended

theorem tick_calls_iff : 0 < (((begin ts).steps n).trace t.handle).calls ↔ t.Due := by
  constructor
  · intro called
    by_contra waiting
    rw [waiting_trace ordered nodup n ended t member waiting] at called
    simp [Trace.pass, waiting] at called
  · intro due
    exact List.countP_pos_iff.mpr
      ⟨t.invocation, (begin ts).steps_called n t member due ended, decide_eq_true rfl⟩

theorem tick_counts (waiting : ¬ t.Due) : t.counted ∈ ((begin ts).steps n).done := by
  have kept := congrArg Trace.kept (waiting_trace ordered nodup n ended t member waiting)
  simp only [Sweep.trace, Trace.pass, waiting, false_and, if_false, List.nil_append,
    Listed.after] at kept
  have inside : t.counted ∈ ((begin ts).steps n).done.filter fun u => u.handle = t.handle := by
    rw [kept]
    exact List.mem_singleton.mpr rfl
  exact (List.mem_filter.mp inside).1

theorem tick_keeps_iff : t.handle ∈ ((begin ts).steps n).done.map Listed.handle ↔
    ¬ (t.type = .btTimerSingle ∧ t.Due) := by
  cases kind : t.type with
  | btTimerRepeat =>
    obtain ⟨u, inside, same⟩ := (begin ts).steps_keep_repeat n t member kind
    rw [Sweep.all, ended, List.append_nil] at inside
    exact iff_of_true (List.mem_map.mpr ⟨u, inside, same⟩) (by simp)
  | btTimerSingle =>
    have passed := single_trace ordered nodup n ended t member kind
    have listed : t.handle ∈ ((begin ts).steps n).done.map Listed.handle ↔
        (((begin ts).steps n).trace t.handle).kept ≠ [] := by
      simp [Sweep.trace, List.filter_eq_nil_iff]
    rw [listed, passed]
    by_cases due : t.Due
    · simp [Trace.pass, due, kind]
    · simp [Trace.pass, due]

end Ended

-- The next tick brings the timer to the end of its interval.
def BtTimerList.Expires (s : BtTimerList) (h : Nat) : Prop :=
  (s.timers h).interval.toNat ≤ (s.timers h).elapse.toNat + 1

/-- What a completed tick does, told by the counters before it. -/
structure Ticked (s s' : BtTimerList) : Prop where
  listed : ∀ h, s'.Linked h ↔
    s.Linked h ∧ ¬ ((s.timers h).type = .btTimerSingle ∧ s.Expires h)
  counted : ∀ h, s.Linked h → ¬ s.Expires h →
    (s'.timers h).elapse.toNat = (s.timers h).elapse.toNat + 1
  called : ∀ h, s.calls h < s'.calls h ↔ s.Linked h ∧ s.Expires h
  inserted : ∀ h, h ∈ Op.inserts s s' .tick ↔
    s.Linked h ∧ (s.timers h).type = .btTimerRepeat ∧ s.Expires h

theorem expires_iff {s : BtTimerList} {ts : List Listed} (rep : Represents s ts)
    (ordered : Ordered ts) {t : Listed} (member : t ∈ ts) : s.Expires t.handle ↔ t.Due := by
  rw [due_iff t (ordered.young t member), Expires, rep.fields t member]
  change t.interval.toNat ≤ t.elapse.toNat + 1 ↔ _
  omega

theorem inserts_tick {s s' : BtTimerList} {calls : List Invocation}
    (invoked : s'.invoked = s.invoked ++ calls) (h : Nat) :
    h ∈ Op.inserts s s' .tick ↔ s.calls h < s'.calls h ∧ (s.timers h).type = .btTimerRepeat := by
  have more : s.calls h < s'.calls h ↔ h ∈ calls.map Invocation.handle := by
    rw [BtTimerList.calls, BtTimerList.calls, invoked, List.countP_append, Nat.lt_add_right_iff_pos,
      List.countP_pos_iff, List.mem_map]
    simp
  rw [more, Op.inserts, invoked, List.drop_left, List.mem_filter, decide_eq_true_eq]

theorem tick_ticked {rounds : Nat} {s s' : BtTimerList} {ts : List Listed} (rep : Represents s ts)
    (ordered : Ordered ts) (returned : s.btTimerFunc rounds = .returned s') : Ticked s s' := by
  obtain ⟨after, agrees, result⟩ := btTimerFunc_correct rounds rep ordered
  obtain ⟨ended, -⟩ := tick_calls rounds rep ordered returned 0
  rw [if_pos ended, returned] at result
  obtain rfl := Outcome.returned.inj result
  have final := agrees.rep
  rw [Sweep.all, ended, List.append_nil] at final
  have called (h : Nat) : s.calls h < s'.calls h ↔ s.Linked h ∧ s.Expires h := by
    rw [(tick_calls rounds rep ordered returned h).2, Nat.lt_add_right_iff_pos, rep.linked_iff]
    by_cases listed : h ∈ ts.map Listed.handle
    · obtain ⟨t, member, rfl⟩ := List.mem_map.mp listed
      rw [and_iff_right listed, expires_iff rep ordered member]
      exact tick_calls_iff ordered rep.nodup rounds ended t member
    · rw [(begin ts).steps_trace_absent rounds h listed, begin_trace]
      exact iff_of_false (Nat.lt_irrefl 0) fun both => listed both.1
  constructor
  · intro h
    rw [final.linked_iff, rep.linked_iff]
    by_cases listed : h ∈ ts.map Listed.handle
    · obtain ⟨t, member, rfl⟩ := List.mem_map.mp listed
      rw [tick_keeps_iff ordered rep.nodup rounds ended t member, expires_iff rep ordered member,
        rep.fields t member, and_iff_right listed]
      rfl
    · apply iff_of_false _ (fun both => listed both.1)
      intro member
      obtain ⟨u, inside, rfl⟩ := List.mem_map.mp member
      obtain ⟨t, source, same, -⟩ := (begin ts).steps_source rounds u (List.mem_append_left _ inside)
      exact listed (same ▸ List.mem_map_of_mem source)
  · intro h linked early
    obtain ⟨t, member, rfl⟩ := List.mem_map.mp ((rep.linked_iff h).mp linked)
    rw [expires_iff rep ordered member] at early
    have counted := tick_counts ordered rep.nodup rounds ended t member early
    have stored := final.fields t.counted counted
    rw [Listed.counted_handle] at stored
    rw [stored, rep.fields t member]
    change t.counted.elapse.toNat = t.elapse.toNat + 1
    have young := ordered.young t member
    have bound := t.interval.toNat_lt
    rw [Listed.counted_elapse, UInt32.toNat_add, show (1 : UInt32).toNat = 1 from rfl,
      Nat.mod_eq_of_lt (by omega)]
  · exact called
  · intro h
    rw [inserts_tick agrees.invoked, called]
    exact and_right_comm.trans and_assoc

theorem Represents.queue {s : BtTimerList} {ts : List Listed} {log : List Nat}
    (rep : Represents s ts) (ordered : Ordered ts) (inOrder : InOrder log ts) :
    s.Queue log (ts.map Listed.handle) := by
  have fields (t : Listed) (member : t ∈ ts) : s.timers t.handle = t.timer := rep.fields t member
  constructor
  · rw [List.map_map]
    exact rep.ring
  · exact rep.nodup
  · rw [List.pairwise_map]
    apply ordered.sorted.imp_of_mem
    intro t u first second before
    rw [fields t first, fields u second]
    exact before
  · intro k
    have same : (ts.map Listed.handle).filter (fun h => (s.timers h).interval = k) =
        (ts.filter fun t => t.interval = k).map Listed.handle := by
      rw [List.filter_map]
      apply congrArg
      apply List.filter_congr
      intro t member
      simp only [Function.comp_apply, fields t member]
      rfl
    rw [same]
    exact inOrder k
  · intro h member
    obtain ⟨t, inside, rfl⟩ := List.mem_map.mp member
    rw [fields t inside]
    exact ordered.young t inside

/-- The timers are ordered by interval, those of one interval by their last insertion; no round of
a tick lets a counter wrap; and a completed tick removes the single-shot timers that expire. -/
theorem timer_list_in_order (fuel : Nat) (ops : List Op) (s : BtTimerList)
    (ran : run fuel btTimerInit ops = .returned s) :
    (∃ handles, s.Queue (insertions fuel btTimerInit ops) handles) ∧
      (∀ rounds h, (s.btTimerFunc rounds).state.Linked h →
        ((s.btTimerFunc rounds).state.timers h).elapse.toNat + 1 < 2 ^ 32) ∧
      ∀ rounds s', s.btTimerFunc rounds = .returned s' → Ticked s s' := by
  obtain ⟨ts, rep, ordered, inOrder⟩ := run_inOrder fuel ops s ran
  refine ⟨⟨_, rep.queue ordered inOrder⟩, ?_, fun rounds s' => tick_ticked rep ordered⟩
  intro rounds h linked
  obtain ⟨after, agrees, result⟩ := btTimerFunc_correct rounds rep ordered
  have state : (s.btTimerFunc rounds).state = after := by
    rw [result]
    split <;> rfl
  rw [state] at linked ⊢
  obtain ⟨t, member, rfl⟩ := List.mem_map.mp ((agrees.rep.linked_iff h).mp linked)
  have young := (Sweep.steps_ordered rounds (begin ts) ordered).young t member
  rw [agrees.rep.fields t member]
  have bound := t.interval.toNat_lt
  change t.elapse.toNat + 1 < 2 ^ 32
  omega

def Outcome.hasReturned : Outcome → Bool
  | .returned _ => true
  | _ => false

theorem Outcome.returned_state {o : Outcome} (ends : o.hasReturned = true) :
    o = .returned o.state := by
  cases o with
  | returned s => rfl
  | fault s => cases ends
  | running s => cases ends

theorem timer_list_in_order_after_tick :
    let ops := [.add 7 0 0xffffffff .btTimerRepeat, .add 8 0 2 .btTimerSingle,
      .add 9 0 1 .btTimerRepeat, .update 0, .tick]
    let s := (run 5 btTimerInit ops).state
    let s' := (s.btTimerFunc 5).state
    (∃ handles, s.Queue (insertions 5 btTimerInit ops) handles) ∧
      insertions 5 btTimerInit ops = [0, 1, 2, 0, 2] ∧ Ticked s s' ∧ ¬ s'.Linked 1 := by
  intro ops s s'
  have order := timer_list_in_order 5 ops s (Outcome.returned_state (by decide +kernel))
  have ticked : Ticked s s' := order.2.2 5 s' (Outcome.returned_state (by decide +kernel))
  have expired : (s.timers 1).type = .btTimerSingle ∧
      (s.timers 1).interval.toNat ≤ (s.timers 1).elapse.toNat + 1 := by decide +kernel
  exact ⟨order.1, by decide +kernel, ticked, fun linked => ((ticked.listed 1).mp linked).2 expired⟩

end BTServer.Timer
