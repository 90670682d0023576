import BTServer.Timer.Reach

set_option autoImplicit false

namespace BTServer.Timer

open LinkedList BtTimerList

-- Repeating timers of interval 0 or 1 are due on every visit.
def Clash (t u : Listed) : Prop :=
  t.type = .btTimerRepeat ∧ u.type = .btTimerRepeat ∧ t.interval = u.interval ∧ t.interval ≤ 1

def Apart (ts : List Listed) : Prop := ts.Pairwise fun t u => ¬ Clash t u

theorem clash_symm {t u : Listed} (clash : Clash t u) : Clash u t := by
  obtain ⟨first, second, same, small⟩ := clash
  exact ⟨second, first, same.symm, same ▸ small⟩

instance : Std.Symm fun t u => ¬ Clash t u := ⟨fun _ _ free clash => free (clash_symm clash)⟩

theorem apart_insert (t : Listed) (ts : List Listed) :
    Apart (insertTimer t.reset ts) ↔ Apart (t :: ts) := by
  have moved : Apart (insertTimer t.reset ts) ↔ Apart (t.reset :: ts) :=
    (insertTimer_perm t.reset ts).pairwise_iff fun free clash => free (clash_symm clash)
  rw [moved, Apart, Apart, List.pairwise_cons, List.pairwise_cons]
  rfl

theorem due_of_small (t : Listed) (small : t.interval ≤ 1)
    (young : t.elapse.toNat < max 1 t.interval.toNat) : t.Due := by
  have := UInt32.le_iff_toNat_le.mp small
  rw [show (1 : UInt32).toNat = 1 from rfl] at this
  rw [due_iff t young]
  omega

theorem Sweep.step_apart (w : Sweep) (ordered : Ordered w.all) :
    Apart w.step.todo ↔ Apart w.todo := by
  cases next : w.todo with
  | nil => simp [next]
  | cons t rest =>
    simp only [all, next] at ordered
    have young := ordered.young t (by simp)
    have sorted := (List.pairwise_append.mp ordered.sorted).2.1
    have drop (free : ∀ u ∈ rest, ¬ Clash t u) : Apart rest ↔ Apart (t :: rest) := by
      rw [Apart, Apart, List.pairwise_cons, and_iff_right free]
    rcases w.step_cases t rest next with
      ⟨waiting, result⟩ | ⟨-, single, result⟩ | ⟨-, -, alone, result⟩ | ⟨-, -, -, result⟩
    · rw [result]
      exact drop fun u _ clash => waiting (due_of_small t clash.2.2.2 young)
    · rw [result]
      refine drop fun u _ clash => ?_
      have again := clash.1
      rw [single] at again
      exact BtTimerType.noConfusion again
    · rw [result]
      refine drop fun u member clash => ?_
      have later := sorted_dropWhile t rest (List.pairwise_cons.mp sorted).2 u
        (by rwa [dropWhile_of_takeWhile_nil t rest alone])
      rw [clash.2.2.1] at later
      exact UInt32.lt_irrefl _ later
    · rw [result]
      exact apart_insert t rest

theorem Sweep.steps_apart (n : Nat) (w : Sweep) (ordered : Ordered w.all) :
    Apart (w.steps n).todo ↔ Apart w.todo := by
  induction n generalizing w with
  | zero => rfl
  | succ n ih => rw [steps, ih w.step (w.step_ordered ordered), w.step_apart ordered]

/-- How many more rounds a timer ahead of the cursor can cause before it is passed. -/
def extra (t : Listed) (rest : List Listed) : Nat :=
  if t.type = .btTimerRepeat ∧ t.Due then
    if t.interval ≤ 1 then rest.countP (notAfter t) else 1
  else 0

def pending : List Listed → Nat
  | [] => 0
  | t :: rest => 1 + extra t rest + pending rest

theorem pending_middle (front back : List Listed) (t : Listed)
    (free : ∀ u ∈ front, u.type = .btTimerRepeat → ¬ u.interval ≤ 1) :
    pending (front ++ t :: back) = pending (front ++ back) + (1 + extra t back) := by
  induction front with
  | nil =>
    simp only [List.nil_append, pending]
    omega
  | cons u front ih =>
    have same : extra u (front ++ t :: back) = extra u (front ++ back) := by
      by_cases fires : u.type = .btTimerRepeat ∧ u.Due
      · simp only [extra, if_pos fires, if_neg (free u (by simp) fires.1)]
      · simp only [extra, if_neg fires]
    simp only [List.cons_append, pending, same, ih fun v member => free v (by simp [member])]
    omega

theorem extra_due {t : Listed} {rest : List Listed} (again : t.type = .btTimerRepeat)
    (due : t.Due) (others : rest.takeWhile (notAfter t) ≠ []) : 1 ≤ extra t rest := by
  rw [extra, if_pos ⟨again, due⟩]
  by_cases small : t.interval ≤ 1
  · rw [if_pos small]
    obtain ⟨u, member⟩ := List.exists_mem_of_ne_nil _ others
    exact List.countP_pos_iff.mpr ⟨u, (List.takeWhile_sublist _).subset member,
      List.all_eq_true.mp List.all_takeWhile u member⟩
  · rw [if_neg small]

theorem extra_reset (t : Listed) {rest : List Listed}
    (sorted : rest.Pairwise fun a b => a.interval ≤ b.interval) :
    extra t.reset (rest.dropWhile (notAfter t)) = 0 := by
  by_cases small : t.interval ≤ 1
  · have none : (rest.dropWhile (notAfter t)).countP (notAfter t.reset) = 0 := by
      rw [List.countP_eq_zero]
      intro u member below
      have later := sorted_dropWhile t rest sorted u member
      exact UInt32.not_le.mpr later (of_decide_eq_true below)
    simp only [extra, Listed.reset_interval, if_pos small, none, ite_self]
  · have waits : ¬ t.reset.Due := by
      intro again
      exact small again
    simp only [extra, waits, and_false, if_false]

theorem Sweep.step_pending (w : Sweep) (ordered : Ordered w.all) (apart : Apart w.todo)
    (t : Listed) (rest : List Listed) (next : w.todo = t :: rest) :
    pending w.step.todo < pending w.todo := by
  have shorter : pending rest < pending (t :: rest) := by
    simp only [pending]
    omega
  rw [next]
  rcases w.step_cases t rest next with
    ⟨-, result⟩ | ⟨-, -, result⟩ | ⟨-, -, -, result⟩ | ⟨due, again, others, result⟩
  · rw [result]
    exact shorter
  · rw [result]
    exact shorter
  · rw [result]
    exact shorter
  · rw [result]
    simp only [all, next] at ordered
    rw [next] at apart
    have sorted := List.pairwise_cons.mp (List.pairwise_append.mp ordered.sorted).2.1
    have passed : ∀ u ∈ rest.takeWhile (notAfter t), u.interval = t.interval := by
      intro u member
      have below : u.interval ≤ t.interval := by
        simpa [notAfter] using List.all_eq_true.mp List.all_takeWhile u member
      exact UInt32.le_antisymm below
        (sorted.1 u ((List.takeWhile_sublist _).subset member))
    have free : ∀ u ∈ rest.takeWhile (notAfter t), u.type = .btTimerRepeat →
        ¬ u.interval ≤ 1 := by
      intro u member kind small
      have same := passed u member
      exact (List.pairwise_cons.mp apart).1 u ((List.takeWhile_sublist _).subset member)
        ⟨again, kind, same.symm, same ▸ small⟩
    have whole : pending (insertTimer t.reset rest) =
        pending rest + (1 + extra t.reset (rest.dropWhile (notAfter t))) := by
      have moved := pending_middle (rest.takeWhile (notAfter t)) (rest.dropWhile (notAfter t))
        t.reset free
      rwa [List.takeWhile_append_dropWhile] at moved
    have before := extra_due again due others
    have after := extra_reset t sorted.2
    rw [whole, after, pending]
    omega

theorem Sweep.ends_of_apart (bound : Nat) (w : Sweep) (ordered : Ordered w.all)
    (apart : Apart w.todo) (enough : pending w.todo ≤ bound) : (w.steps bound).todo = [] := by
  induction bound generalizing w with
  | zero =>
    cases next : w.todo with
    | nil => exact next
    | cons t rest =>
      rw [next, pending] at enough
      omega
  | succ bound ih =>
    cases next : w.todo with
    | nil => rw [w.steps_of_nil _ next, next]
    | cons t rest =>
      have less := w.step_pending ordered apart t rest next
      exact ih w.step (w.step_ordered ordered) ((w.step_apart ordered).mpr apart) (by omega)

theorem sweep_ends_iff (ts : List Listed) (ordered : Ordered ts) :
    (∃ n, ((begin ts).steps n).todo = []) ↔ Apart ts := by
  have whole : Ordered (begin ts).all := by simpa [begin, Sweep.all] using ordered
  constructor
  · rintro ⟨n, ended⟩
    refine ((begin ts).steps_apart n whole).mp ?_
    rw [ended]
    exact List.Pairwise.nil
  · intro apart
    exact ⟨_, Sweep.ends_of_apart _ (begin ts) whole apart le_rfl⟩

def BtTimerList.Linked (s : BtTimerList) (handle : Nat) : Prop :=
  ∃ nodes, Ring s.links .timerList nodes ∧ Ptr.timer handle ∈ nodes

theorem Represents.linked_iff {s : BtTimerList} {ts : List Listed} (rep : Represents s ts)
    (handle : Nat) : s.Linked handle ↔ handle ∈ ts.map Listed.handle := by
  rw [← mem_pointers]
  constructor
  · rintro ⟨nodes, ring, member⟩
    rwa [← ring.unique rep.ring]
  · intro member
    exact ⟨_, rep.ring, member⟩

def Reachable (s : BtTimerList) : Prop := ∃ fuel ops, run fuel btTimerInit ops = .returned s

theorem Reachable.represents {s : BtTimerList} (reachable : Reachable s) :
    ∃ ts, Represents s ts ∧ Ordered ts := by
  obtain ⟨fuel, ops, ran⟩ := reachable
  obtain ⟨ts, rep, ordered, -⟩ := run_represents ran
  exact ⟨ts, rep, ordered⟩

theorem btTimerFunc_ends_iff {s : BtTimerList} {ts : List Listed} (rep : Represents s ts)
    (ordered : Ordered ts) : (∃ fuel s', s.btTimerFunc fuel = .returned s') ↔ Apart ts := by
  rw [← sweep_ends_iff ts ordered]
  constructor
  · rintro ⟨fuel, s', returned⟩
    obtain ⟨after, -, result⟩ := btTimerFunc_correct fuel rep ordered
    rw [result] at returned
    by_contra never
    rw [if_neg fun ended => never ⟨fuel, ended⟩] at returned
    exact Outcome.noConfusion returned
  · rintro ⟨fuel, ended⟩
    obtain ⟨after, -, result⟩ := btTimerFunc_correct fuel rep ordered
    exact ⟨fuel, after, by rw [result, if_pos ended]⟩

/-- Two timers of the list that go behind each other for ever. -/
def BtTimerList.Chase (s : BtTimerList) (h k : Nat) : Prop :=
  (s.timers h).type = .btTimerRepeat ∧ (s.timers k).type = .btTimerRepeat ∧
    (s.timers h).interval = (s.timers k).interval ∧ (s.timers h).interval ≤ 1

theorem Represents.apart_iff {s : BtTimerList} {ts : List Listed} (rep : Represents s ts) :
    Apart ts ↔ ∀ h k, s.Linked h → s.Linked k → s.Chase h k → h = k := by
  have chase (t u : Listed) (first : t ∈ ts) (second : u ∈ ts) :
      s.Chase t.handle u.handle ↔ Clash t u := by
    rw [Chase, rep.fields t first, rep.fields u second]
    rfl
  have distinct := List.nodup_iff_pairwise_ne.mp rep.nodup
  rw [List.pairwise_map] at distinct
  constructor
  · intro apart h k hLinked kLinked chased
    obtain ⟨t, first, rfl⟩ := List.mem_map.mp ((rep.linked_iff h).mp hLinked)
    obtain ⟨u, second, rfl⟩ := List.mem_map.mp ((rep.linked_iff k).mp kLinked)
    by_contra different
    have free := apart.forall first second (fun same => different (congrArg _ same))
    exact free ((chase t u first second).mp chased)
  · intro alone
    refine distinct.imp_of_mem fun {t u} first second different clash => different ?_
    exact alone t.handle u.handle ((rep.linked_iff _).mpr (List.mem_map_of_mem first))
      ((rep.linked_iff _).mpr (List.mem_map_of_mem second)) ((chase t u first second).mpr clash)

theorem tick_ends_iff (s : BtTimerList) (reachable : Reachable s) :
    (∃ fuel s', s.btTimerFunc fuel = .returned s') ↔
      ∀ h k, s.Linked h → s.Linked k → s.Chase h k → h = k := by
  obtain ⟨ts, rep, ordered⟩ := reachable.represents
  rw [btTimerFunc_ends_iff rep ordered, rep.apart_iff]

theorem tick_ends_beside_single : ∃ fuel s',
    ((btTimerInit.btTimerAdd 7 0 1 .btTimerRepeat).btTimerAdd 8 0 1 .btTimerSingle).btTimerFunc
      fuel = .returned s' := by
  refine (tick_ends_iff _ ⟨0, [.add 7 0 1 .btTimerRepeat, .add 8 0 1 .btTimerSingle], rfl⟩).mpr ?_
  have only (h : Nat) (kind : (((btTimerInit.btTimerAdd 7 0 1 .btTimerRepeat).btTimerAdd 8 0 1
      .btTimerSingle).timers h).type = .btTimerRepeat) : h = 0 := by
    by_contra other
    by_cases second : h = 1
    · subst second
      exact BtTimerType.noConfusion kind
    · simp [btTimerAdd, BtTimerList.listAddTail, BtTimerList.setTimer, btTimerInit, other,
        second] at kind
  intro h k _ _ chase
  rw [only h chase.1, only k chase.2.1]

theorem pair_represents (interval : UInt32) :
    Represents ((btTimerInit.btTimerAdd 7 0 interval .btTimerRepeat).btTimerAdd 8 0 interval
      .btTimerRepeat) [newTimer 0 7 0 interval .btTimerRepeat, newTimer 1 8 0 interval .btTimerRepeat] ∧
    Ordered [newTimer 0 7 0 interval .btTimerRepeat, newTimer 1 8 0 interval .btTimerRepeat] := by
  have second : insertTimer (newTimer 1 8 0 interval .btTimerRepeat)
      [newTimer 0 7 0 interval .btTimerRepeat] =
        [newTimer 0 7 0 interval .btTimerRepeat, newTimer 1 8 0 interval .btTimerRepeat] := by
    simp [insertTimer, notAfter, newTimer, Listed.interval]
  have first := btTimerAdd_correct btTimerInit_represents 7 0 interval .btTimerRepeat
  have rep := btTimerAdd_correct first 8 0 interval .btTimerRepeat
  refine ⟨second ▸ rep, ?_⟩
  rw [← second]
  exact ((⟨by simp, by simp⟩ : Ordered []).insert _ (young_of_zero _ rfl)).insert _
    (young_of_zero _ rfl)

/-- Two repeating timers of interval 1: each goes behind the other, always due. -/
theorem two_repeating_timers_never_end : ∃ s,
    run 0 btTimerInit [.add 7 0 1 .btTimerRepeat, .add 8 0 1 .btTimerRepeat] = .returned s ∧
      ∀ fuel s', s.btTimerFunc fuel ≠ .returned s' := by
  refine ⟨_, rfl, fun fuel s' returned => ?_⟩
  obtain ⟨rep, ordered⟩ := pair_represents 1
  have apart := (btTimerFunc_ends_iff rep ordered).mp ⟨fuel, s', returned⟩
  exact (List.pairwise_cons.mp apart).1 _ (List.mem_singleton.mpr rfl) ⟨rfl, rfl, rfl, by decide⟩

end BTServer.Timer
