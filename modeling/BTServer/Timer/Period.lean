import BTServer.Timer.Visits

set_option autoImplicit false

namespace BTServer.Timer

open LinkedList BtTimerList

def BtTimerList.Precedes (s : BtTimerList) (h k : Nat) : Prop :=
  ∃ nodes, Ring s.links .timerList nodes ∧ [Ptr.timer h, Ptr.timer k].Sublist nodes

/-- No repeating timer that expires in the next tick stands before a timer of its interval. With
interval 0 a single one may: it is no timer with a period. -/
structure BtTimerList.Steady (s : BtTimerList) : Prop where
  calm : ∀ h k, s.Precedes h k → (s.timers h).type = .btTimerRepeat → 1 ≤ (s.timers h).interval →
    (s.timers h).elapse + 1 ≥ (s.timers h).interval →
    (s.timers k).interval ≠ (s.timers h).interval
  zero : ∀ h k, s.Linked h → s.Linked k → (s.timers h).type = .btTimerRepeat →
    (s.timers k).type = .btTimerRepeat → (s.timers h).interval = 0 → (s.timers k).interval = 0 →
    h = k

/-- The tick ends, counts every repeating timer of interval `k ≥ 1` once and runs the callback
of those whose `k`-th, `2k`-th, … tick since they were armed it is. -/
def BtTimerList.KeepsPeriods (records : List Record) (s : BtTimerList) : Prop :=
  ∃ fuel s', s.btTimerFunc fuel = .returned s' ∧ ∀ h, s.Linked h →
    (s.timers h).type = .btTimerRepeat → 1 ≤ (s.timers h).interval →
    s'.visited.count h = s.visited.count h + 1 ∧ ∃ r, records[h]? = some r ∧
      s'.invoked.countP (fun call => call.handle = h) =
        s.invoked.countP (fun call => call.handle = h) +
          if (s.timers h).interval.toNat ∣ r.age + 1 then 1 else 0

structure Settled (ts : List Listed) : Prop where
  calm : ∀ t u, [t, u].Sublist ts → t.type = .btTimerRepeat → 1 ≤ t.interval → t.Due →
    u.interval ≠ t.interval
  zero : ∀ t ∈ ts, ∀ u ∈ ts, t.type = .btTimerRepeat → u.type = .btTimerRepeat →
    t.interval = 0 → u.interval = 0 → t.handle = u.handle

theorem Represents.precedes_iff {s : BtTimerList} {ts : List Listed} (rep : Represents s ts)
    (h k : Nat) :
    s.Precedes h k ↔ ∃ t u, [t, u].Sublist ts ∧ t.handle = h ∧ u.handle = k := by
  constructor
  · rintro ⟨nodes, ring, pair⟩
    rw [ring.unique rep.ring, List.sublist_map_iff] at pair
    obtain ⟨inside, sub, same⟩ := pair
    match inside, same with
    | [t, u], same =>
      simp only [List.map_cons, List.map_nil, List.cons.injEq, Listed.ptr, Ptr.timer.injEq,
        and_true] at same
      exact ⟨t, u, sub, same.1.symm, same.2.symm⟩
  · rintro ⟨t, u, sub, rfl, rfl⟩
    exact ⟨_, rep.ring, sub.map Listed.ptr⟩

theorem Represents.steady_iff {s : BtTimerList} {ts : List Listed} (rep : Represents s ts) :
    s.Steady ↔ Settled ts := by
  have fields (t : Listed) (member : t ∈ ts) : s.timers t.handle = t.timer := rep.fields t member
  constructor
  · intro steady
    refine ⟨fun t u pair again positive due => ?_, fun t first u second => ?_⟩
    · have calm := steady.calm _ _ ((rep.precedes_iff _ _).mpr ⟨t, u, pair, rfl, rfl⟩)
      rw [fields t (pair.subset (by simp)), fields u (pair.subset (by simp))] at calm
      exact calm again positive due
    · have zero := steady.zero _ _ ((rep.linked_iff _).mpr (List.mem_map_of_mem first))
        ((rep.linked_iff _).mpr (List.mem_map_of_mem second))
      rw [fields t first, fields u second] at zero
      exact zero
  · intro settled
    refine ⟨fun h k precedes => ?_, fun h k hLinked kLinked => ?_⟩
    · obtain ⟨t, u, pair, rfl, rfl⟩ := (rep.precedes_iff h k).mp precedes
      rw [fields t (pair.subset (by simp)), fields u (pair.subset (by simp))]
      exact settled.calm t u pair
    · obtain ⟨t, first, rfl⟩ := List.mem_map.mp ((rep.linked_iff h).mp hLinked)
      obtain ⟨u, second, rfl⟩ := List.mem_map.mp ((rep.linked_iff k).mp kLinked)
      rw [fields t first, fields u second]
      exact settled.zero t first u second

theorem one_le_iff (k : UInt32) : 1 ≤ k ↔ 1 ≤ k.toNat := by
  rw [UInt32.le_iff_toNat_le]
  rfl

theorem Settled.calm_at {ts : List Listed} (settled : Settled ts) (k : UInt32)
    (positive : 1 ≤ k) : Calm k ts := by
  refine List.pairwise_iff_forall_sublist.mpr fun {t u} pair => ?_
  rintro ⟨again, due⟩
  have first : t.interval = k := by simpa using List.of_mem_filter (pair.subset (by simp))
  have second : u.interval = k := by simpa using List.of_mem_filter (pair.subset (by simp))
  exact settled.calm t u (pair.trans List.filter_sublist) again (first ▸ positive) due
    (second.trans first.symm)

theorem Settled.apart {ts : List Listed} (settled : Settled ts) (ordered : Ordered ts)
    (nodup : (ts.map Listed.handle).Nodup) : Apart ts := by
  refine List.pairwise_iff_forall_sublist.mpr fun {t u} pair => ?_
  rintro ⟨first, second, same, small⟩
  have tIn : t ∈ ts := pair.subset (by simp)
  by_cases positive : 1 ≤ t.interval
  · exact settled.calm t u pair first positive (due_of_small t small (ordered.young t tIn))
      same.symm
  · have zero : t.interval = 0 := by
      rw [one_le_iff] at positive
      exact UInt32.toNat_inj.mp (by rw [UInt32.toNat_zero]; omega)
    have equal := settled.zero t tIn u (pair.subset (by simp)) first second zero (same ▸ zero)
    have distinct := nodup.sublist (pair.map Listed.handle)
    simp [equal] at distinct

theorem settled_of_once {ts : List Listed} (ordered : Ordered ts) (n : Nat)
    (ended : ((begin ts).steps n).todo = [])
    (once : ∀ t ∈ ts, t.type = .btTimerRepeat → 1 ≤ t.interval →
      (((begin ts).steps n).trace t.handle).visits = 1)
    (apart : ∀ t ∈ ts, ∀ u ∈ ts, Clash t u → t.handle = u.handle) : Settled ts := by
  refine ⟨fun t u pair again positive due same => ?_, ?_⟩
  · have twice := (begin ts).steps_visited_twice n t u pair again due same
      (by simpa [begin, Sweep.all] using ordered) ended
    rw [once t (pair.subset (by simp)) again positive] at twice
    omega
  · intro t first u second tAgain uAgain tZero uZero
    exact apart t first u second ⟨tAgain, uAgain, tZero.trans uZero.symm, by rw [tZero]; decide⟩

theorem next_mod (age k : Nat) (positive : 1 ≤ k) :
    (age + 1) % k = if k ≤ age % k + 1 then 0 else age % k + 1 := by
  have less := Nat.mod_lt age positive
  have split : age + 1 = k * (age / k) + (age % k + 1) := by
    have := Nat.div_add_mod age k
    omega
  rw [split, Nat.mul_add_mod]
  split
  next reached => rw [show age % k + 1 = k by omega, Nat.mod_self]
  next => exact Nat.mod_eq_of_lt (by omega)

def InPhase (t : Listed) (r : Record) : Prop :=
  t.type = .btTimerRepeat → 1 ≤ t.interval → t.elapse.toNat = r.age % t.interval.toNat

theorem InPhase.due_iff {t : Listed} {r : Record} (phase : InPhase t r)
    (again : t.type = .btTimerRepeat) (positive : 1 ≤ t.interval)
    (young : t.elapse.toNat < max 1 t.interval.toNat) :
    t.Due ↔ t.interval.toNat ∣ r.age + 1 := by
  have bound := (one_le_iff _).mp positive
  rw [Timer.due_iff t young, phase again positive, Nat.dvd_iff_mod_eq_zero,
    next_mod r.age _ bound, max_eq_right bound]
  split <;> simp_all

theorem InPhase.after {t : Listed} {r : Record} (phase : InPhase t r)
    (young : t.elapse.toNat < max 1 t.interval.toNat) :
    InPhase t.after { r with age := r.age + 1 } := by
  intro again positive
  have kind : t.after.type = t.type := by
    unfold Listed.after
    split <;> rfl
  have span : t.after.interval = t.interval := by
    unfold Listed.after
    split <;> rfl
  rw [kind] at again
  rw [span] at positive ⊢
  have bound := (one_le_iff _).mp positive
  have due := Timer.due_iff t young
  rw [max_eq_right bound, phase again positive] at due
  rw [next_mod r.age _ bound]
  by_cases fires : t.Due
  · rw [if_pos (due.mp fires), Listed.after, if_pos fires, Listed.reset_elapse, UInt32.toNat_zero]
  · rw [if_neg (fun reached => fires (due.mpr reached)), Listed.after, if_neg fires,
      Listed.counted_elapse, ← phase again positive, UInt32.toNat_add,
      show (1 : UInt32).toNat = 1 from rfl, Nat.mod_eq_of_lt]
    have := UInt32.toNat_lt t.interval
    omega

theorem begin_trace (ts : List Listed) (handle : Nat) : (begin ts).trace handle = ⟨0, 0, []⟩ :=
  rfl

theorem Settled.trace {ts : List Listed} (settled : Settled ts) (ordered : Ordered ts)
    (nodup : (ts.map Listed.handle).Nodup) (n : Nat) (ended : ((begin ts).steps n).todo = [])
    (t : Listed) (member : t ∈ ts) (positive : 1 ≤ t.interval) :
    ((begin ts).steps n).trace t.handle = Trace.pass ⟨0, 0, []⟩ t := by
  rw [← begin_trace ts t.handle]
  exact (begin ts).steps_trace_once n t (by simpa [begin, Sweep.all] using ordered) nodup member
    (.inr (.inr (settled.calm_at _ positive))) ended

theorem Settled.tick_inPhase {ts : List Listed} (settled : Settled ts) (ordered : Ordered ts)
    (nodup : (ts.map Listed.handle).Nodup) (n : Nat) (ended : ((begin ts).steps n).todo = [])
    (u : Listed) (member : u ∈ ((begin ts).steps n).done) :
    ∃ t ∈ ts, t.handle = u.handle ∧ t.type = u.type ∧ t.interval = u.interval ∧
      ∀ r, InPhase t r → InPhase u { r with age := r.age + 1 } := by
  obtain ⟨t, inside, handle, type, interval⟩ := (begin ts).steps_source n u
    (List.mem_append_left _ member)
  change t ∈ ts at inside
  refine ⟨t, inside, handle, type, interval, fun r phase again positive => ?_⟩
  have passed := settled.trace ordered nodup n ended t inside (interval ▸ positive)
  have single : ¬ (t.Due ∧ t.type = .btTimerSingle) := by
    rw [type, again]
    simp
  have kept : u ∈ (Trace.pass ⟨0, 0, []⟩ t).kept := by
    rw [← passed]
    simp [Sweep.trace, member, handle]
  rw [Trace.pass, if_neg single, List.nil_append, List.mem_singleton] at kept
  subst kept
  exact phase.after (ordered.young t inside) again positive

def SteadyTicks (fuel : Nat) (ops : List Op) : Prop :=
  ∀ front back s, ops = front ++ .tick :: back → run fuel btTimerInit front = .returned s → s.Steady

theorem SteadyTicks.of_append {fuel : Nat} {front back : List Op}
    (steady : SteadyTicks fuel (front ++ back)) : SteadyTicks fuel front := by
  intro first rest s split ran
  exact steady first (rest ++ back) s (by rw [split]; simp) ran

theorem run_inPhase (fuel : Nat) (ops : List Op) (s : BtTimerList)
    (ran : run fuel btTimerInit ops = .returned s) (steady : SteadyTicks fuel ops) :
    ∃ ts, Represents s ts ∧ Ordered ts ∧ Tracked InPhase (history ops) ts := by
  have whole : ∃ ts, Represents s ts ∧ Ordered ts ∧
      (SteadyTicks fuel ops → Tracked InPhase (history ops) ts) := by
    refine run_invariant fuel
      (fun ops ts => SteadyTicks fuel ops → Tracked InPhase (history ops) ts) ?_ ?_ ops s ran
    · intro _ t member
      exact absurd member List.not_mem_nil
    · intro ops s ts op ts' ran rep ordered held effect ordered' steady
      rw [history_append]
      refine effect.tracked ?_ rep.nodup (held steady.of_append) ?_
      · intro t r zero young _ _
        rw [zero, young, Nat.zero_mod, UInt32.toNat_zero]
      · rintro rfl u member
        have settled := rep.steady_iff.mp (steady ops [] s rfl ran)
        cases effect with
        | tick _ ended =>
          obtain ⟨t, inside, handle, type, interval, next⟩ :=
            settled.tick_inPhase ordered rep.nodup fuel ended u member
          exact ⟨t, inside, handle, type, interval, fun r _ phase => next r phase⟩
  obtain ⟨ts, rep, ordered, tracked⟩ := whole
  exact ⟨ts, rep, ordered, tracked steady⟩

theorem keepsPeriods_of_steady {s : BtTimerList} {ts : List Listed} {records : List Record}
    (rep : Represents s ts) (ordered : Ordered ts) (tracked : Tracked InPhase records ts)
    (steady : s.Steady) : s.KeepsPeriods records := by
  have settled := rep.steady_iff.mp steady
  obtain ⟨n, ended⟩ := (sweep_ends_iff ts ordered).mpr (settled.apart ordered rep.nodup)
  obtain ⟨s', agrees, result⟩ := btTimerFunc_correct n rep ordered
  refine ⟨n, s', by rw [result, if_pos ended], fun h linked again positive => ?_⟩
  obtain ⟨t, member, rfl⟩ := List.mem_map.mp ((rep.linked_iff h).mp linked)
  rw [rep.fields t member] at again positive ⊢
  obtain ⟨r, found, -, -, -, phase⟩ := tracked t member
  have passed := settled.trace ordered rep.nodup n ended t member positive
  have due := phase.due_iff again positive (ordered.young t member)
  refine ⟨?_, r, found, ?_⟩
  · have visits := congrArg Trace.visits passed
    simp only [Sweep.trace, Trace.pass] at visits
    rw [agrees.visited, List.count_append, visits]
  · have calls := congrArg Trace.calls passed
    simp only [Sweep.trace, Trace.pass, due, Nat.zero_add] at calls
    rw [agrees.invoked, List.countP_append, calls]
    rfl

theorem steady_of_keepsPeriods {s : BtTimerList} {ts : List Listed} {records : List Record}
    (rep : Represents s ts) (ordered : Ordered ts) (keeps : s.KeepsPeriods records) :
    s.Steady := by
  obtain ⟨n, s', returned, kept⟩ := keeps
  have apart := rep.apart_iff.mp ((btTimerFunc_ends_iff rep ordered).mp ⟨n, s', returned⟩)
  obtain ⟨after, agrees, result⟩ := btTimerFunc_correct n rep ordered
  rw [result] at returned
  split at returned
  next ended =>
    obtain rfl := Outcome.returned.inj returned
    refine rep.steady_iff.mpr (settled_of_once ordered n ended ?_ ?_)
    · intro t member again positive
      have linked := (rep.linked_iff t.handle).mpr (List.mem_map_of_mem member)
      have once := kept t.handle linked
      rw [rep.fields t member] at once
      have count := (once again positive).1
      rw [agrees.visited, List.count_append] at count
      exact Nat.add_left_cancel count
    · intro t first u second clash
      refine apart _ _ ((rep.linked_iff _).mpr (List.mem_map_of_mem first))
        ((rep.linked_iff _).mpr (List.mem_map_of_mem second)) ?_
      rw [Chase, rep.fields t first, rep.fields u second]
      exact clash
  next => exact Outcome.noConfusion returned

theorem repeating_timers_keep_period_iff (fuel : Nat) (ops : List Op) :
    (∀ front back s, ops = front ++ .tick :: back → run fuel btTimerInit front = .returned s →
      s.KeepsPeriods (history front)) ↔
    ∀ front back s, ops = front ++ .tick :: back → run fuel btTimerInit front = .returned s →
      s.Steady := by
  constructor
  · intro keeps front back s split ran
    obtain ⟨ts, rep, ordered⟩ := Reachable.represents ⟨fuel, front, ran⟩
    exact steady_of_keepsPeriods rep ordered (keeps front back s split ran)
  · intro steady front back s split ran
    have earlier : SteadyTicks fuel (front ++ .tick :: back) := split ▸ steady
    obtain ⟨ts, rep, ordered, tracked⟩ := run_inPhase fuel front s ran earlier.of_append
    exact keepsPeriods_of_steady rep ordered tracked (steady front back s split ran)

/-- Two repeating timers of interval 2. In the second tick each expires before the other and is
counted again behind it. -/
theorem equal_intervals_count_twice :
    (run 20 btTimerInit [.add 7 0 2 .btTimerRepeat, .add 8 0 2 .btTimerRepeat, .tick,
      .tick]).state.visited = [0, 1, 0, 1, 0, 1] ∧
    ∃ s, run 20 btTimerInit [.add 7 0 2 .btTimerRepeat, .add 8 0 2 .btTimerRepeat, .tick] =
        .returned s ∧
      ¬ s.KeepsPeriods (history [.add 7 0 2 .btTimerRepeat, .add 8 0 2 .btTimerRepeat, .tick]) := by
  refine ⟨by decide +kernel, ?_⟩
  obtain ⟨rep, ordered⟩ := pair_represents 2
  obtain ⟨s, agrees, result⟩ := btTimerFunc_correct 20 rep ordered
  refine ⟨s, ?_, fun keeps => ?_⟩
  · rw [if_pos (by decide)] at result
    simp only [run, exec, Outcome.andThen, result]
  · have rep' := agrees.rep
    have ordered' := Sweep.steps_ordered 20 _ (show Ordered (begin _).all from ordered)
    have whole : ((begin [newTimer 0 7 0 2 .btTimerRepeat, newTimer 1 8 0 2 .btTimerRepeat]).steps
        20).all = [(newTimer 0 7 0 2 .btTimerRepeat).counted,
          (newTimer 1 8 0 2 .btTimerRepeat).counted] := by
      decide
    rw [whole] at rep' ordered'
    have settled := rep'.steady_iff.mp (steady_of_keepsPeriods rep' ordered' keeps)
    exact settled.calm _ _ (List.Sublist.refl _) rfl (by decide) (by decide) rfl

end BTServer.Timer
