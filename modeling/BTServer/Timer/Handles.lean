import BTServer.Timer.Period

set_option autoImplicit false

namespace BTServer.Timer

open LinkedList BtTimerList

def Record.Live (r : Record) : Prop :=
  r.deleted = false ∧ (r.type = .btTimerRepeat ∨ r.age < max 1 r.interval.toNat)

def Live (records : List Record) (handle : Nat) : Prop :=
  ∃ r, records[handle]? = some r ∧ r.Live

/-- The operation is applied to a handle that was returned and not yet deleted. -/
def Held (records : List Record) : Op → Prop
  | .update handle => ∃ r, records[handle]? = some r ∧ r.deleted = false
  | .del handle => ∃ r, records[handle]? = some r ∧ r.deleted = false
  | _ => True

def Expired (records : List Record) (handle : Nat) : Prop :=
  ∃ r, records[handle]? = some r ∧ r.type = .btTimerSingle ∧ max 1 r.interval.toNat ≤ r.age

/-- The operation is applied to a single-shot timer whose time has come since it was armed. -/
def Late (records : List Record) : Op → Prop
  | .update handle => Expired records handle
  | .del handle => Expired records handle
  | _ => False

structure Usable (fuel : Nat) (ops : List Op) : Prop where
  deletions : ∀ deletion ∈ (run fuel btTimerInit ops).state.deletions, LinkedAt deletion
  list : ∀ s, run fuel btTimerInit ops = .returned s → ∃ nodes, Ring s.links .timerList nodes ∧
    ∀ p, p ∈ nodes ↔ ∃ handle, p = .timer handle ∧ Live (history ops) handle
  finit : ∀ s, run fuel btTimerInit ops = .returned s →
    (∃ steps s', s.btTimerFinit steps = .returned s') ∧
      ∀ steps, ∀ deletion ∈ (s.btTimerFinit steps).state.deletions, LinkedAt deletion

def OnTime (t : Listed) (r : Record) : Prop :=
  t.type = .btTimerSingle → t.elapse.toNat = r.age

def Covers (records : List Record) (ts : List Listed) : Prop :=
  ∀ handle, Live records handle → handle ∈ ts.map Listed.handle

theorem single_trace {ts : List Listed} (ordered : Ordered ts)
    (nodup : (ts.map Listed.handle).Nodup) (n : Nat) (ended : ((begin ts).steps n).todo = [])
    (t : Listed) (member : t ∈ ts) (single : t.type = .btTimerSingle) :
    ((begin ts).steps n).trace t.handle = Trace.pass ⟨0, 0, []⟩ t := by
  rw [← begin_trace ts t.handle]
  exact (begin ts).steps_trace_once n t (by simpa [begin, Sweep.all] using ordered) nodup member
    (.inl single) ended

theorem tick_onTime {ts : List Listed} (ordered : Ordered ts)
    (nodup : (ts.map Listed.handle).Nodup) (n : Nat) (ended : ((begin ts).steps n).todo = [])
    (u : Listed) (member : u ∈ ((begin ts).steps n).done) :
    ∃ t ∈ ts, t.handle = u.handle ∧ t.type = u.type ∧ t.interval = u.interval ∧
      ∀ r, OnTime t r → OnTime u { r with age := r.age + 1 } := by
  obtain ⟨t, inside, handle, type, interval⟩ := (begin ts).steps_source n u
    (List.mem_append_left _ member)
  change t ∈ ts at inside
  refine ⟨t, inside, handle, type, interval, fun r phase single => ?_⟩
  have kind : t.type = .btTimerSingle := type.trans single
  have passed := single_trace ordered nodup n ended t inside kind
  have kept : u ∈ (Trace.pass ⟨0, 0, []⟩ t).kept := by
    rw [← passed]
    simp [Sweep.trace, member, handle]
  by_cases due : t.Due
  · simp [Trace.pass, due, kind] at kept
  · simp only [Trace.pass, due, false_and, if_false, List.nil_append, List.mem_singleton,
      Listed.after] at kept
    subst kept
    have young := ordered.young t inside
    have bound := UInt32.toNat_lt t.interval
    rw [Listed.counted_elapse, UInt32.toNat_add, show (1 : UInt32).toNat = 1 from rfl,
      Nat.mod_eq_of_lt (by omega), phase kind]

theorem tick_covers {ts : List Listed} {records : List Record} (ordered : Ordered ts)
    (nodup : (ts.map Listed.handle).Nodup) (n : Nat) (ended : ((begin ts).steps n).todo = [])
    (tracked : Tracked OnTime records ts) (covers : Covers records ts) :
    Covers (remember records .tick) ((begin ts).steps n).done := by
  rintro handle ⟨r', found, kept, live⟩
  simp only [remember, List.getElem?_map, Option.map_eq_some_iff] at found
  obtain ⟨r, found, rfl⟩ := found
  have before : Live records handle := by
    refine ⟨r, found, kept, live.imp_right fun less => ?_⟩
    simp only at less
    omega
  obtain ⟨t, member, rfl⟩ := List.mem_map.mp (covers handle before)
  cases kind : t.type with
  | btTimerRepeat =>
    obtain ⟨u, inside, same⟩ := (begin ts).steps_keep_repeat n t member kind
    rw [Sweep.all, ended, List.append_nil] at inside
    exact List.mem_map.mpr ⟨u, inside, same⟩
  | btTimerSingle =>
    obtain ⟨r₁, found₁, type, interval, -, phase⟩ := tracked t member
    obtain rfl : r₁ = r := Option.some.inj (found₁.symm.trans found)
    have less : r₁.age + 1 < max 1 r₁.interval.toNat := by
      rcases live with again | less
      · rw [type, kind] at again
        exact BtTimerType.noConfusion again
      · exact less
    have waiting : ¬ t.Due := by
      rw [due_iff t (ordered.young t member), phase kind, ← interval]
      omega
    have passed := congrArg Trace.kept (single_trace ordered nodup n ended t member kind)
    simp only [Sweep.trace, Trace.pass, waiting, false_and, if_false, List.nil_append,
      Listed.after] at passed
    have inside : t.counted ∈ ((begin ts).steps n).done.filter fun u => u.handle = t.handle := by
      rw [passed]
      exact List.mem_singleton.mpr rfl
    exact List.mem_map.mpr ⟨t.counted, (List.mem_filter.mp inside).1, rfl⟩

theorem Effect.covers {fuel : Nat} {records : List Record} {op : Op} {ts ts' : List Listed}
    (effect : Effect fuel records.length op ts ts') (ordered : Ordered ts)
    (nodup : (ts.map Listed.handle).Nodup) (tracked : Tracked OnTime records ts)
    (covers : Covers records ts) : Covers (remember records op) ts' := by
  cases effect with
  | add func data interval type =>
    rintro handle ⟨r, found, live⟩
    rw [((insertTimer_perm _ ts).map Listed.handle).mem_iff, List.map_cons, List.mem_cons]
    by_cases new : handle = records.length
    · exact .inl new
    · refine .inr (covers handle ⟨r, ?_, live⟩)
      have bound := (List.getElem?_eq_some_iff.mp found).1
      simp only [remember, List.length_append, List.length_singleton] at bound
      rwa [remember, List.getElem?_append_left (by omega)] at found
  | update front back t =>
    rintro handle ⟨r, found, live⟩
    rw [((insertTimer_perm _ (front ++ back)).map Listed.handle).mem_iff, List.map_cons,
      List.mem_cons]
    by_cases same : handle = t.handle
    · exact .inl same
    · rw [remember, List.getElem?_modify_ne _ _ (Ne.symm same)] at found
      have listed := covers handle ⟨r, found, live⟩
      simp only [List.map_append, List.map_cons, List.mem_append, List.mem_cons] at listed ⊢
      tauto
  | del front back t =>
    rintro handle ⟨r, found, kept, live⟩
    have different : handle ≠ t.handle := by
      rintro rfl
      simp only [remember, List.getElem?_modify_eq, Option.map_eq_map, Option.map_eq_some_iff] at found
      obtain ⟨r₀, -, rfl⟩ := found
      exact Bool.noConfusion kept
    rw [remember, List.getElem?_modify_ne _ _ (Ne.symm different)] at found
    have listed := covers handle ⟨r, found, kept, live⟩
    simp only [List.map_append, List.map_cons, List.mem_append, List.mem_cons] at listed ⊢
    tauto
  | tick _ ended => exact tick_covers ordered nodup fuel ended tracked covers

theorem run_tracks (fuel : Nat) (ops : List Op) (s : BtTimerList)
    (ran : run fuel btTimerInit ops = .returned s) :
    ∃ ts, Represents s ts ∧ Ordered ts ∧ Tracked OnTime (history ops) ts ∧
      Covers (history ops) ts := by
  refine run_invariant fuel
    (fun ops ts => Tracked OnTime (history ops) ts ∧ Covers (history ops) ts) ?_ ?_ ops s ran
  · refine ⟨fun t member => absurd member List.not_mem_nil, ?_⟩
    rintro handle ⟨r, found, -⟩
    simp at found
  · intro ops s ts op ts' ran rep ordered held effect ordered'
    obtain ⟨tracked, covers⟩ := held
    rw [history_append]
    refine ⟨effect.tracked ?_ rep.nodup tracked ?_, effect.covers ordered rep.nodup tracked covers⟩
    · intro t r zero young _
      rw [zero, young, UInt32.toNat_zero]
    · rintro rfl u member
      cases effect with
      | tick _ ended =>
        obtain ⟨t, inside, handle, type, interval, next⟩ :=
          tick_onTime ordered rep.nodup fuel ended u member
        exact ⟨t, inside, handle, type, interval, fun r _ phase => next r phase⟩

theorem listed_iff_live {records : List Record} {ts : List Listed} (ordered : Ordered ts)
    (tracked : Tracked OnTime records ts) (covers : Covers records ts) (handle : Nat) :
    handle ∈ ts.map Listed.handle ↔ Live records handle := by
  refine ⟨fun member => ?_, covers handle⟩
  obtain ⟨t, inside, rfl⟩ := List.mem_map.mp member
  obtain ⟨r, found, type, interval, deleted, phase⟩ := tracked t inside
  refine ⟨r, found, deleted, ?_⟩
  cases kind : t.type with
  | btTimerRepeat => exact .inl (type.trans kind)
  | btTimerSingle =>
    have young := ordered.young t inside
    rw [phase kind, ← interval] at young
    exact .inr young

theorem finitLoop_correct (fuel : Nat) {s : BtTimerList} {ts : List Listed}
    (rep : Represents s ts) :
    ∃ s', Represents s' (ts.drop fuel) ∧ s'.num = s.num ∧
      finitLoop fuel s (cursor ts) (s.links (cursor ts)).next =
        if ts.drop fuel = [] then .returned s' else .running s' := by
  induction fuel generalizing s ts with
  | zero =>
    refine ⟨s, rep, rfl, ?_⟩
    cases ts with
    | nil => rfl
    | cons t rest => rfl
  | succ fuel ih =>
    cases ts with
    | nil => exact ⟨s, rep, rfl, rfl⟩
    | cons t rest =>
      have whole : Represents s ([] ++ t :: rest) := rep
      obtain ⟨s₁, deleted, rep₁, num₁, -, -⟩ := btTimerDel_correct whole
      obtain ⟨s', final, num, loop⟩ := ih rep₁
      refine ⟨s', final, num.trans num₁, ?_⟩
      have next : (s.links (.timer t.handle)).next = cursor rest :=
        Ring.next_of_split [] rep.ring
      rw [List.drop_succ_cons, show cursor (t :: rest) = .timer t.handle from rfl, next]
      simp only [finitLoop, deleted, Outcome.andThen]
      exact loop

theorem btTimerFinit_correct {s : BtTimerList} {ts : List Listed} (rep : Represents s ts) :
    (∃ steps s', s.btTimerFinit steps = .returned s') ∧
      ∀ steps, ∀ deletion ∈ (s.btTimerFinit steps).state.deletions, LinkedAt deletion := by
  have start : (s.links .timerList).next = cursor ts := rep.ring.next_head
  constructor
  · obtain ⟨s', -, -, loop⟩ := finitLoop_correct ts.length rep
    refine ⟨ts.length, { s' with
      links := Function.update s'.links .timerList ⟨.null, .null⟩, num := 0 }, ?_⟩
    rw [btTimerFinit, start, loop, List.drop_length, if_pos rfl]
    rfl
  · intro steps deletion member
    obtain ⟨s', final, -, loop⟩ := finitLoop_correct steps rep
    rw [btTimerFinit, start, loop] at member
    split at member
    next => exact final.deletions deletion member
    next => exact final.deletions deletion member

theorem exec_not_listed (fuel : Nat) {s : BtTimerList} {ts : List Listed} (op : Op)
    (rep : Represents s ts) (handle : Nat) (target : op = .update handle ∨ op = .del handle)
    (absent : handle ∉ ts.map Listed.handle) :
    exec fuel s op = .fault { s with deletions := s.deletions ++ [(s.links, .timer handle)] } := by
  rcases target with rfl | rfl
  · simp only [exec, btTimerUpdate, rep.listDel_fault handle absent, Outcome.andThen]
  · simp only [exec, btTimerDel, rep.listDel_fault handle absent, Outcome.andThen]

theorem exec_deletions (fuel : Nat) {s : BtTimerList} {ts : List Listed} (op : Op)
    (rep : Represents s ts) (ordered : Ordered ts)
    (target : ∀ handle, op = .update handle ∨ op = .del handle → handle ∈ ts.map Listed.handle) :
    ∀ deletion ∈ (exec fuel s op).state.deletions, LinkedAt deletion := by
  cases op with
  | add func data interval type =>
    exact (btTimerAdd_correct rep func data interval type).deletions
  | update handle =>
    obtain ⟨front, t, back, rfl, rfl⟩ := split_of_handle (target handle (.inl rfl))
    obtain ⟨s', result, rep', -⟩ := btTimerUpdate_correct rep
    rw [exec, result]
    exact rep'.deletions
  | del handle =>
    obtain ⟨front, t, back, rfl, rfl⟩ := split_of_handle (target handle (.inr rfl))
    obtain ⟨s', result, rep', -⟩ := btTimerDel_correct rep
    rw [exec, result]
    exact rep'.deletions
  | tick =>
    obtain ⟨s', agrees, result⟩ := btTimerFunc_correct fuel rep ordered
    rw [exec, result]
    split
    next => exact agrees.rep.deletions
    next => exact agrees.rep.deletions

theorem run_stops (fuel : Nat) (s : BtTimerList) (ops : List Op) :
    (∃ s', run fuel s ops = .returned s') ∨ ∃ front op back before,
      ops = front ++ op :: back ∧ run fuel s front = .returned before ∧
        run fuel s ops = exec fuel before op := by
  induction ops generalizing s with
  | nil => exact .inl ⟨s, rfl⟩
  | cons op ops ih =>
    cases result : exec fuel s op with
    | returned s₁ =>
      rcases ih s₁ with ⟨s', ran⟩ | ⟨front, last, back, before, rfl, ran, stop⟩
      · exact .inl ⟨s', by simpa [run, result, Outcome.andThen] using ran⟩
      · refine .inr ⟨op :: front, last, back, before, rfl, ?_, ?_⟩
        · simpa [run, result, Outcome.andThen] using ran
        · simpa [run, result, Outcome.andThen] using stop
    | fault s₁ =>
      exact .inr ⟨[], op, ops, s, rfl, rfl, by simp [run, result, Outcome.andThen]⟩
    | running s₁ =>
      exact .inr ⟨[], op, ops, s, rfl, rfl, by simp [run, result, Outcome.andThen]⟩

theorem target_listed {records : List Record} {ts : List Listed} (covers : Covers records ts)
    (op : Op) (held : Held records op) (early : ¬ Late records op) (handle : Nat)
    (target : op = .update handle ∨ op = .del handle) : handle ∈ ts.map Listed.handle := by
  have known : ∃ r, records[handle]? = some r ∧ r.deleted = false := by
    rcases target with rfl | rfl <;> exact held
  have fresh : ¬ Expired records handle := by
    rcases target with rfl | rfl <;> exact early
  obtain ⟨r, found, kept⟩ := known
  refine covers handle ⟨r, found, kept, ?_⟩
  cases kind : r.type with
  | btTimerRepeat => exact .inl rfl
  | btTimerSingle =>
    refine .inr (Nat.lt_of_not_le fun reached => fresh ⟨r, found, kind, reached⟩)

theorem late_deletion (fuel : Nat) (ops : List Op) (op : Op) (s : BtTimerList)
    (ran : run fuel btTimerInit ops = .returned s) (late : Late (history ops) op) :
    ∃ deletion ∈ (run fuel btTimerInit (ops ++ [op])).state.deletions, ¬ LinkedAt deletion := by
  obtain ⟨ts, rep, ordered, tracked, covers⟩ := run_tracks fuel ops s ran
  obtain ⟨handle, target, r, found, single, reached⟩ :
      ∃ handle, (op = .update handle ∨ op = .del handle) ∧ Expired (history ops) handle := by
    cases op with
    | add func data interval type => exact absurd late id
    | update handle => exact ⟨handle, .inl rfl, late⟩
    | del handle => exact ⟨handle, .inr rfl, late⟩
    | tick => exact absurd late id
  have absent : handle ∉ ts.map Listed.handle := by
    rw [listed_iff_live ordered tracked covers]
    rintro ⟨r₁, found₁, -, live⟩
    obtain rfl : r₁ = r := Option.some.inj (found₁.symm.trans found)
    rcases live with again | less
    · rw [single] at again
      exact BtTimerType.noConfusion again
    · omega
  refine ⟨(s.links, .timer handle), ?_, ?_⟩
  · rw [run_append, ran]
    simp only [Outcome.andThen, run, exec_not_listed fuel op rep handle target absent,
      Outcome.state]
    simp
  · rintro ⟨nodes, ring, member⟩
    exact absent ((rep.linked_iff handle).mp ⟨nodes, ring, member⟩)

theorem handles_stay_usable_iff (fuel : Nat) (ops : List Op)
    (held : ∀ front op back, ops = front ++ op :: back → Held (history front) op) :
    (∀ front back, ops = front ++ back → Usable fuel front) ↔
      ∀ front op back s, ops = front ++ op :: back → run fuel btTimerInit front = .returned s →
        ¬ Late (history front) op := by
  constructor
  · intro usable front op back s split ran late
    obtain ⟨deletion, member, loose⟩ := late_deletion fuel front op s ran late
    exact loose ((usable (front ++ [op]) back (by simpa using split)).deletions deletion member)
  · intro early front back split
    refine ⟨?_, ?_, ?_⟩
    · rcases run_stops fuel btTimerInit front with ⟨s, ran⟩ | ⟨first, op, rest, s, inside, ran, stop⟩
      · obtain ⟨ts, rep, -⟩ := run_tracks fuel front s ran
        rw [ran]
        exact rep.deletions
      · obtain ⟨ts, rep, ordered, tracked, covers⟩ := run_tracks fuel first s ran
        have whole : ops = first ++ op :: (rest ++ back) := by
          rw [split, inside]
          simp
        rw [stop]
        exact exec_deletions fuel op rep ordered (target_listed covers op (held _ _ _ whole)
          (early _ _ _ s whole ran))
    · intro s ran
      obtain ⟨ts, rep, ordered, tracked, covers⟩ := run_tracks fuel front s ran
      refine ⟨_, rep.ring, fun p => ?_⟩
      constructor
      · intro member
        obtain ⟨t, inside, rfl⟩ := List.mem_map.mp member
        exact ⟨t.handle, rfl, (listed_iff_live ordered tracked covers _).mp
          (List.mem_map_of_mem inside)⟩
      · rintro ⟨handle, rfl, live⟩
        exact (mem_pointers ts handle).mpr (covers handle live)
    · intro s ran
      obtain ⟨ts, rep, -⟩ := run_tracks fuel front s ran
      exact btTimerFinit_correct rep

theorem handles_stay_usable_before_expiry :
    Usable 20 [.add 7 0 2 .btTimerSingle, .tick, .update 0] := by
  have splits (front : List Op) (op : Op) (back : List Op)
      (split : [.add 7 0 2 .btTimerSingle, .tick, .update 0] = front ++ op :: back) :
      (front = [] ∧ op = .add 7 0 2 .btTimerSingle) ∨
        (front = [.add 7 0 2 .btTimerSingle] ∧ op = .tick) ∨
        (front = [.add 7 0 2 .btTimerSingle, .tick] ∧ op = .update 0) := by
    rcases front with _ | ⟨a, _ | ⟨b, _ | ⟨c, front⟩⟩⟩ <;> simp_all
  refine (handles_stay_usable_iff 20 [.add 7 0 2 .btTimerSingle, .tick, .update 0] ?_).mpr ?_ _ []
    rfl
  · intro front op back split
    rcases splits front op back split with ⟨rfl, rfl⟩ | ⟨rfl, rfl⟩ | ⟨rfl, rfl⟩
    · trivial
    · trivial
    · exact ⟨⟨.btTimerSingle, 2, 1, false⟩, rfl, rfl⟩
  · intro front op back s split _
    rcases splits front op back split with ⟨rfl, rfl⟩ | ⟨rfl, rfl⟩ | ⟨rfl, rfl⟩
    · exact id
    · exact id
    · rintro ⟨r, found, -, reached⟩
      obtain rfl : ⟨.btTimerSingle, 2, 1, false⟩ = r := Option.some.inj found
      exact absurd reached (by decide)

/-- A single-shot timer of interval 1 leaves the list in the first tick; an update then follows
its poisoned links. -/
theorem update_after_expiry :
    Held (history [.add 7 0 1 .btTimerSingle, .tick]) (.update 0) ∧
      ∃ deletion ∈ (run 20 btTimerInit [.add 7 0 1 .btTimerSingle, .tick,
        .update 0]).state.deletions, ¬ LinkedAt deletion := by
  refine ⟨⟨⟨.btTimerSingle, 1, 1, false⟩, rfl, rfl⟩, ?_⟩
  exact late_deletion 20 [.add 7 0 1 .btTimerSingle, .tick] (.update 0) _ rfl
    ⟨⟨.btTimerSingle, 1, 1, false⟩, rfl, rfl, by decide⟩

end BTServer.Timer
