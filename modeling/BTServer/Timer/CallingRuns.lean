import BTServer.Timer.Calling

set_option autoImplicit false

namespace BTServer.Timer.Calling

open LinkedList BtTimerList

theorem Holds.nodup {s : BtTimerList} {l : Line} (holds : Holds s l) : l.handles.Nodup :=
  holds.rep.nodup

theorem listDel_cases (s : BtTimerList) (entry : Ptr) :
    (∃ s', s.listDel entry = .returned s' ∧ s'.timers = s.timers ∧ s'.freed = s.freed) ∨
      ∃ s', s.listDel entry = .fault s' := by
  unfold BtTimerList.listDel
  split
  next => exact .inl ⟨_, rfl, rfl, rfl⟩
  next => exact .inr ⟨_, rfl⟩

theorem btTimerUpdate_freed {s s' : BtTimerList} {handle : Nat}
    (returned : s.btTimerUpdate handle = .returned s') : s'.freed = s.freed := by
  unfold btTimerUpdate at returned
  rcases listDel_cases s (.timer handle) with ⟨s₁, deleted, -, freed⟩ | ⟨s₁, fault⟩
  next =>
    rw [deleted] at returned
    obtain rfl := Outcome.returned.inj returned
    exact freed
  next =>
    rw [fault] at returned
    cases returned

theorem btTimerDel_freed {s s' : BtTimerList} {handle : Nat}
    (returned : s.btTimerDel handle = .returned s') : s'.freed = s.freed ++ [handle] := by
  unfold btTimerDel at returned
  rcases listDel_cases s (.timer handle) with ⟨s₁, deleted, -, freed⟩ | ⟨s₁, fault⟩
  next =>
    rw [deleted] at returned
    obtain rfl := Outcome.returned.inj returned
    exact congrArg (· ++ [handle]) freed
  next =>
    rw [fault] at returned
    cases returned

theorem insertTimer_handles (t : Listed) (ts : List Listed) (handle : Nat) :
    handle ∈ (insertTimer t ts).map Listed.handle ↔
      handle = t.handle ∨ handle ∈ ts.map Listed.handle := by
  rw [((insertTimer_perm t ts).map Listed.handle).mem_iff, List.map_cons, List.mem_cons]

section Steps

variable {s : BtTimerList} {l : Line} (holds : Holds s l)

include holds

theorem unlisted_fault {handle : Nat} (absent : handle ∉ l.handles) (f : BtTimerList → Outcome) :
    ∃ s', (s.listDel (.timer handle)).andThen f = .fault s' := by
  rw [holds.rep.listDel_fault handle absent]
  exact ⟨_, rfl⟩

theorem call_matches (c : Call) : Matches (call s c) (l.call c) := by
  cases c with
  | add func data interval type =>
    have rep := btTimerAdd_correct holds.rep func data interval type
    rw [holds.num] at rep
    refine .returned ⟨rep, congrArg (· + 1) holds.num, holds.invoked, holds.freed, ?_⟩
    intro handle inside
    obtain ⟨bound, absent⟩ := holds.released handle inside
    refine ⟨Nat.lt_succ_of_lt bound, ?_⟩
    rw [Line.handles, insertTimer_handles]
    rintro (same | listed)
    · exact Nat.ne_of_lt bound same
    · exact absent listed
  | update handle =>
    by_cases present : handle ∈ l.handles
    next =>
      obtain ⟨front, t, back, split, rfl⟩ := split_of_handle present
      have rep := holds.rep
      rw [split] at rep
      obtain ⟨s', returned, rep', num, -, invoked⟩ := btTimerUpdate_correct rep
      rw [call, returned, Line.call, Line.find_split holds.nodup split]
      dsimp only
      rw [Line.without_split holds.nodup split]
      refine .returned ⟨rep', num.trans holds.num, invoked.trans holds.invoked,
        (btTimerUpdate_freed returned).trans holds.freed, ?_⟩
      intro k inside
      obtain ⟨bound, absent⟩ := holds.released k inside
      refine ⟨bound, fun listed => absent ?_⟩
      rw [Line.handles, split]
      simpa [Line.handles, insertTimer_handles, or_left_comm] using listed
    next =>
      obtain ⟨s', fault⟩ := unlisted_fault holds present _
      rw [call, btTimerUpdate, fault, Line.call, Line.find_absent present]
      exact .fault
  | del handle =>
    by_cases present : handle ∈ l.handles
    next =>
      obtain ⟨front, t, back, split, rfl⟩ := split_of_handle present
      have rep := holds.rep
      rw [split] at rep
      obtain ⟨s', returned, rep', num, -, invoked⟩ := btTimerDel_correct rep
      rw [call, returned, Line.call, Line.find_split holds.nodup split]
      dsimp only
      rw [Line.without_split holds.nodup split]
      refine .returned ⟨rep', num.trans holds.num, invoked.trans holds.invoked,
        (btTimerDel_freed returned).trans (by rw [holds.freed]), ?_⟩
      intro k inside
      rcases List.mem_append.mp inside with earlier | new
      next =>
        obtain ⟨bound, absent⟩ := holds.released k earlier
        refine ⟨bound, fun listed => absent ?_⟩
        rw [Line.handles, split]
        simp only [Line.handles, List.map_append, List.mem_append, List.map_cons, List.mem_cons]
          at listed ⊢
        tauto
      next =>
        obtain rfl := List.mem_singleton.mp new
        refine ⟨holds.num ▸ rep.bounded t (by simp), fun listed => ?_⟩
        obtain ⟨u, inside, same⟩ := List.mem_map.mp listed
        exact Line.apart_of_split holds.nodup split u inside same
    next =>
      obtain ⟨s', fault⟩ := unlisted_fault holds present _
      rw [call, btTimerDel, fault, Line.call, Line.find_absent present]
      exact .fault

end Steps

theorem calls_matches {s : BtTimerList} {l : Line} (holds : Holds s l) (cs : List Call) :
    Matches (calls s cs) (l.calls cs) := by
  induction cs generalizing s l with
  | nil => exact .returned holds
  | cons c cs ih => exact (call_matches holds c).andThen fun _ _ _ holds => ih holds

-- A timer leaves the list by `bt_timer_del` only, which frees its block.
structure Kept (l l' : Line) : Prop where
  freed : l.freed ⊆ l'.freed
  listed : ∀ handle ∈ l.handles, handle ∈ l'.handles ∨ handle ∈ l'.freed

theorem Kept.refl (l : Line) : Kept l l := ⟨List.Subset.refl _, fun _ => .inl⟩

theorem Kept.trans {l₁ l₂ l₃ : Line} (first : Kept l₁ l₂) (second : Kept l₂ l₃) : Kept l₁ l₃ := by
  refine ⟨fun _ inside => second.freed (first.freed inside), fun handle inside => ?_⟩
  rcases first.listed handle inside with listed | freed
  · exact second.listed handle listed
  · exact .inr (second.freed freed)

theorem without_handles {l : Line} {handle k : Nat} (inside : k ∈ l.handles) (other : k ≠ handle) :
    k ∈ (l.without handle).map Listed.handle := by
  obtain ⟨t, listed, rfl⟩ := List.mem_map.mp inside
  exact List.mem_map_of_mem (List.mem_filter.mpr ⟨listed, by simpa using other⟩)

theorem find_handle {l : Line} {handle : Nat} {t : Listed} (found : l.find handle = some t) :
    t ∈ l.listed ∧ t.handle = handle :=
  ⟨List.mem_of_find?_eq_some found, by simpa using List.find?_some found⟩

theorem call_kept {l l' : Line} {c : Call} (returned : l.call c = .returned l') : Kept l l' := by
  cases c with
  | add func data interval type =>
    obtain rfl := LineOutcome.returned.inj returned
    refine ⟨List.Subset.refl _, fun handle inside => .inl ?_⟩
    rw [Line.handles, insertTimer_handles]
    exact .inr inside
  | update handle =>
    simp only [Line.call] at returned
    split at returned
    next t found =>
      obtain rfl := LineOutcome.returned.inj returned
      refine ⟨List.Subset.refl _, fun k inside => .inl ?_⟩
      rw [Line.handles, insertTimer_handles]
      by_cases same : k = handle
      · exact .inl (same.trans (find_handle found).2.symm)
      · exact .inr (without_handles inside same)
    next => cases returned
  | del handle =>
    simp only [Line.call] at returned
    split at returned
    next t found =>
      obtain rfl := LineOutcome.returned.inj returned
      refine ⟨List.subset_append_left _ _, fun k inside => ?_⟩
      by_cases same : k = handle
      · exact .inr (by simp [same])
      · exact .inl (without_handles inside same)
    next => cases returned

theorem LineOutcome.andThen_eq_returned {o : LineOutcome} {f : Line → LineOutcome} {l' : Line}
    (returned : o.andThen f = .returned l') : ∃ l, o = .returned l ∧ f l = .returned l' := by
  cases o with
  | returned l => exact ⟨l, rfl, returned⟩
  | fault => cases returned
  | running l => cases returned

theorem calls_kept {l l' : Line} {cs : List Call} (returned : l.calls cs = .returned l') :
    Kept l l' := by
  induction cs generalizing l with
  | nil =>
    obtain rfl := LineOutcome.returned.inj returned
    exact .refl l
  | cons c cs ih =>
    obtain ⟨l₁, first, rest⟩ := LineOutcome.andThen_eq_returned returned
    exact (call_kept first).trans (ih rest)

theorem set_handles (l : Line) (t : Listed) : (l.set t).handles = l.handles := by
  rw [Line.handles, Line.set, List.map_map]
  refine List.map_congr_left fun u _ => ?_
  by_cases same : u.handle = t.handle <;> simp [same]

/-- Everything a round that returns can do. -/
theorem round_cases {callbacks : Callbacks} {l l' : Line} {handle : Nat}
    (returned : l.round callbacks handle = .returned l') :
    ∃ t, l.find handle = some t ∧ (¬ t.Due ∧ l' = l.set t.counted ∨
      t.Due ∧ ∃ l₁ t₁, l₁.find handle = some t₁ ∧
        (l.expire t).calls (callbacks (l.invoked ++ [t.invocation])) = .returned l₁ ∧
        l' = { l₁ with
          listed := if t₁.type = .btTimerSingle then l₁.without handle
            else insertTimer t₁ (l₁.without handle) }) := by
  unfold Line.round at returned
  split at returned
  next => cases returned
  next t found =>
    refine ⟨t, found, ?_⟩
    split at returned
    next due =>
      obtain ⟨l₁, called, ended⟩ := LineOutcome.andThen_eq_returned returned
      split at ended
      next => cases ended
      next t₁ still =>
        exact .inr ⟨due, l₁, t₁, still, called, (LineOutcome.returned.inj ended).symm⟩
    next waits => exact .inl ⟨waits, (LineOutcome.returned.inj returned).symm⟩

theorem round_kept {callbacks : Callbacks} {l l' : Line} {handle k : Nat}
    (returned : l.round callbacks handle = .returned l') (inside : k ∈ l.handles)
    (other : k ≠ handle) : k ∈ l'.handles ∨ k ∈ l'.freed := by
  obtain ⟨t, found, ⟨-, rfl⟩ | ⟨-, l₁, t₁, still, called, rfl⟩⟩ := round_cases returned
  next => exact .inl (by rwa [set_handles])
  next =>
    rcases (calls_kept called).listed k (by rwa [← set_handles l t.reset] at inside) with
      listed | freed
    next =>
      left
      rw [Line.handles]
      split
      · exact without_handles listed other
      · exact (insertTimer_handles _ _ _).mpr (.inr (without_handles listed other))
    next => exact .inr freed

section Rounds

variable {s : BtTimerList} {l : Line} (holds : Holds s l)

include holds

theorem set_released (t : Listed) :
    ∀ handle ∈ l.freed, handle < l.num ∧ handle ∉ (l.set t).handles := by
  rw [set_handles]
  exact holds.released

theorem expire_holds {t : Listed} (member : t ∈ l.listed) :
    Holds ((s.increment t.handle).expire t.handle) (l.expire t) := by
  obtain ⟨front, back, split⟩ := List.append_of_mem member
  have rep := holds.rep
  rw [split] at rep
  have now : (s.increment t.handle).timers t.handle = t.counted.timer :=
    rep.increment.fields t.counted (by simp)
  have same : (l.expire t).listed = front ++ t.reset :: back :=
    Line.set_split holds.nodup split rfl
  refine ⟨same ▸ rep.increment.expire, holds.num, ?_, holds.freed, set_released holds t.reset⟩
  rw [Line.expire, ← holds.invoked]
  simp only [expire, now]
  rfl

theorem round_matches (callbacks : Callbacks) {handle : Nat} (present : handle ∈ l.handles) :
    Matches (tickBody callbacks s handle) (l.round callbacks handle) := by
  obtain ⟨front, t, back, split, rfl⟩ := split_of_handle present
  have rep := holds.rep
  rw [split] at rep
  have counted := rep.increment
  have now : (s.increment t.handle).timers t.handle = t.counted.timer :=
    counted.fields t.counted (by simp)
  simp only [tickBody, Line.round, now, Line.find_split holds.nodup split]
  by_cases due : t.Due
  next =>
    have expires : t.counted.timer.elapse ≥ t.counted.timer.interval := due
    have started := expire_holds holds (t := t) (by rw [split]; simp)
    have invoked : ((s.increment t.handle).expire t.handle).invoked =
        l.invoked ++ [t.invocation] := started.invoked
    rw [if_pos expires, if_pos due, invoked]
    refine (calls_matches started _).andThen fun s₁ l₁ _ holds₁ => ?_
    by_cases present₁ : t.handle ∈ l₁.handles
    next =>
      obtain ⟨front₁, t₁, back₁, split₁, same₁⟩ := split_of_handle present₁
      have rep₁ := holds₁.rep
      rw [split₁] at rep₁
      obtain ⟨s₂, deletion, rep₂, timers, num, -, invoked₂, freed⟩ := rep₁.listDel
      have stored : s₂.timers t.handle = t₁.timer := by
        rw [timers, ← same₁]
        exact rep₁.fields t₁ (by simp)
      have outside (u : Listed) (inside : u ∈ front₁ ++ back₁) : u.handle ≠ t₁.handle :=
        Line.apart_of_split holds₁.nodup split₁ u inside
      have ended (s' : BtTimerList) (ts : List Listed) (rep' : Represents s' ts)
          (frame : s'.num = s₂.num ∧ s'.invoked = s₂.invoked ∧ s'.freed = s₂.freed)
          (fewer : ∀ k ∈ ts.map Listed.handle, k ∈ l₁.handles) :
          Holds s' { l₁ with listed := ts } :=
        ⟨rep', (frame.1.trans num).trans holds₁.num, (frame.2.1.trans invoked₂).trans holds₁.invoked,
          (frame.2.2.trans freed).trans holds₁.freed, fun k inside =>
            ⟨(holds₁.released k inside).1, fun listed =>
              (holds₁.released k inside).2 (fewer k listed)⟩⟩
      have parts : ∀ k ∈ (front₁ ++ back₁).map Listed.handle, k ∈ l₁.handles := by
        intro k inside
        rw [Line.handles, split₁]
        simp only [List.map_append, List.map_cons, List.mem_append, List.mem_cons] at inside ⊢
        tauto
      rw [← same₁, show Ptr.timer t₁.handle = t₁.ptr from rfl, deletion,
        Line.find_split holds₁.nodup split₁]
      simp only [Outcome.andThen]
      rw [Line.without_split holds₁.nodup split₁, same₁, stored,
        show t₁.timer.type = t₁.type from rfl]
      by_cases single : t₁.type = .btTimerSingle
      next =>
        rw [if_neg (not_not.mpr single), if_pos single]
        exact .returned (ended s₂ _ rep₂ ⟨rfl, rfl, rfl⟩ parts)
      next =>
        rw [if_pos single, if_neg single]
        refine .returned (ended _ _ ?_ ⟨rfl, rfl, rfl⟩ ?_)
        · refine rep₂.listAddTail t₁ (by rw [same₁, stored]) (num ▸ rep₁.bounded t₁ (by simp)) ?_
          intro inside
          obtain ⟨u, member, equal⟩ := List.mem_map.mp inside
          exact outside u member equal
        · intro k inside
          rcases (insertTimer_handles _ _ _).mp inside with rfl | inside
          · rw [same₁]
            exact present₁
          · exact parts k inside
    next =>
      obtain ⟨s', fault⟩ := unlisted_fault holds₁ present₁ _
      rw [fault, Line.find_absent present₁]
      exact .fault
  next =>
    have waits : ¬ t.counted.timer.elapse ≥ t.counted.timer.interval := due
    rw [if_neg waits, if_neg due]
    have same : (l.set t.counted).listed = front ++ t.counted :: back :=
      Line.set_split holds.nodup split rfl
    exact .returned ⟨same ▸ counted, holds.num, holds.invoked, holds.freed,
      set_released holds t.counted⟩

end Rounds

def place : Option Nat → Ptr
  | none => .timerList
  | some handle => .timer handle

theorem place_cursor (ts : List Listed) : place (ts.head?.map Listed.handle) = cursor ts := by
  cases ts <;> rfl

theorem next_saved {s : BtTimerList} {l : Line} (holds : Holds s l) {handle : Nat}
    (present : handle ∈ l.handles) : (s.links (.timer handle)).next = place (l.next handle) ∧
      ∀ k ∈ l.next handle, k ∈ l.handles ∧ k ≠ handle := by
  obtain ⟨front, t, back, split, rfl⟩ := split_of_handle present
  have ring := holds.rep.ring
  rw [split, List.map_append, List.map_cons] at ring
  rw [Line.next_split holds.nodup split, place_cursor]
  refine ⟨ring.next_of_split _, fun k saved => ?_⟩
  obtain ⟨u, first, rfl⟩ := Option.map_eq_some_iff.mp saved
  have inside : u ∈ back := List.mem_of_mem_head? first
  refine ⟨?_, Line.apart_of_split holds.nodup split u (by simp [inside])⟩
  rw [Line.handles, split]
  exact List.mem_map_of_mem (by simp [inside])

theorem loop_matches (callbacks : Callbacks) (fuel : Nat) {s : BtTimerList} {l : Line}
    (holds : Holds s l) (pos : Option Nat) (present : ∀ handle ∈ pos, handle ∈ l.handles) :
    Matches (tickLoop callbacks fuel s (place pos) (s.links (place pos)).next)
      (l.loop callbacks fuel pos) := by
  induction fuel generalizing s l pos with
  | zero =>
    cases pos with
    | none => exact .returned holds
    | some handle => exact .running holds
  | succ fuel ih =>
    cases pos with
    | none => exact .returned holds
    | some handle =>
      have listed : handle ∈ l.handles := present handle rfl
      obtain ⟨saved, follows⟩ := next_saved holds listed
      simp only [place, tickLoop, Line.loop]
      refine (round_matches holds callbacks listed).andThen fun s' l' ended holds' => ?_
      rw [saved]
      -- Whatever stood behind the timer is still on the list, unless its block has been freed.
      by_cases still : ∀ k ∈ l.next handle, k ∈ l'.handles
      next =>
        have live : released s' (place (l.next handle)) = false := by
          cases next : l.next handle with
          | none => rfl
          | some k =>
            simp only [place, released, decide_eq_false_iff_not, holds'.freed]
            exact fun freed => (holds'.released k freed).2 (still k next)
        rw [live, if_neg Bool.false_ne_true, if_pos (by simpa [Option.all_eq_true] using still)]
        exact ih holds' _ still
      next =>
        obtain ⟨k, next, gone⟩ : ∃ k, l.next handle = some k ∧ k ∉ l'.handles := by
          simpa using still
        have freed : k ∈ s'.freed := by
          rw [holds'.freed]
          exact (round_kept ended (follows k next).1 (follows k next).2).resolve_left gone
        rw [next, if_pos (by simpa [place, released] using freed), if_neg (by simpa using gone)]
        exact .fault

theorem first_place {s : BtTimerList} {l : Line} (holds : Holds s l) :
    (s.links .timerList).next = place (l.listed.head?.map Listed.handle) := by
  rw [place_cursor]
  exact holds.rep.ring.next_head

theorem first_listed {l : Line} : ∀ handle ∈ l.listed.head?.map Listed.handle, handle ∈ l.handles := by
  intro handle first
  obtain ⟨t, head, rfl⟩ := Option.map_eq_some_iff.mp first
  exact List.mem_map_of_mem (List.mem_of_mem_head? head)

theorem tick_matches (callbacks : Callbacks) (fuel : Nat) {s : BtTimerList} {l : Line}
    (holds : Holds s l) : Matches (btTimerFunc callbacks fuel s) (l.tick callbacks fuel) := by
  rw [btTimerFunc, first_place holds]
  exact loop_matches callbacks fuel holds _ first_listed

theorem exec_matches (callbacks : Callbacks) (fuel : Nat) {s : BtTimerList} {l : Line}
    (holds : Holds s l) (op : Op) :
    Matches (exec callbacks fuel s op) (l.exec callbacks fuel op) := by
  cases op with
  | add func data interval type => exact call_matches holds (.add func data interval type)
  | update handle => exact call_matches holds (.update handle)
  | del handle => exact call_matches holds (.del handle)
  | tick => exact tick_matches callbacks fuel holds

theorem run_matches (callbacks : Callbacks) (fuel : Nat) {s : BtTimerList} {l : Line}
    (holds : Holds s l) (ops : List Op) :
    Matches (run callbacks fuel s ops) (l.run callbacks fuel ops) := by
  induction ops generalizing s l with
  | nil => exact .returned holds
  | cons op ops ih =>
    exact (exec_matches callbacks fuel holds op).andThen fun _ _ _ holds => ih holds

def Line.initial : Line := ⟨[], 0, [], []⟩

theorem initial_holds : Holds btTimerInit Line.initial :=
  ⟨btTimerInit_represents, rfl, rfl, rfl, by simp [Line.initial]⟩

section Silent

theorem tickBody_silent (s : BtTimerList) (handle : Nat) :
    tickBody (fun _ => []) s handle = s.tickBody handle ∧
      ∀ s', s.tickBody handle = .returned s' → s'.freed = s.freed := by
  simp only [tickBody, BtTimerList.tickBody, calls, Outcome.andThen]
  split
  next =>
    have block : (((s.increment handle).expire handle).timers handle).type =
          ((s.increment handle).timers handle).type ∧
        (((s.increment handle).expire handle).timers handle).interval =
          ((s.increment handle).timers handle).interval := by
      simp [expire, BtTimerList.setTimer]
    rcases listDel_cases ((s.increment handle).expire handle) (.timer handle) with
      ⟨s₁, deleted, timers, freed⟩ | ⟨s₁, fault⟩
    next =>
      simp only [deleted, timers, block.1, block.2, true_and]
      intro s' returned
      split at returned
      next =>
        obtain rfl := Outcome.returned.inj returned
        exact freed
      next =>
        obtain rfl := Outcome.returned.inj returned
        exact freed
    next => simp [fault]
  next =>
    refine ⟨rfl, fun s' returned => ?_⟩
    obtain rfl := Outcome.returned.inj returned
    rfl

theorem tickLoop_silent (fuel : Nat) {s : BtTimerList} {l : Line} (holds : Holds s l)
    (pos : Option Nat) (present : ∀ handle ∈ pos, handle ∈ l.handles) :
    tickLoop (fun _ => []) fuel s (place pos) (s.links (place pos)).next =
      s.tickLoop fuel (place pos) (s.links (place pos)).next := by
  induction fuel generalizing s l pos with
  | zero => cases pos <;> rfl
  | succ fuel ih =>
    cases pos with
    | none => rfl
    | some handle =>
      have listed : handle ∈ l.handles := present handle rfl
      obtain ⟨saved, follows⟩ := next_saved holds listed
      obtain ⟨same, unchanged⟩ := tickBody_silent s handle
      have body := round_matches holds (fun _ => []) listed
      simp only [place, tickLoop, BtTimerList.tickLoop, same] at body ⊢
      rw [saved]
      generalize ended : l.round (fun _ => []) handle = round at body
      cases outcome : s.tickBody handle with
      | returned s' =>
        rw [outcome] at body
        cases body with
        | @returned _ l' holds' =>
          have live (k : Nat) (next : k ∈ l.next handle) : k ∉ s'.freed := by
            rw [unchanged s' outcome, holds.freed]
            exact fun freed => (holds.released k freed).2 (follows k next).1
          have still (k : Nat) (next : k ∈ l.next handle) : k ∈ l'.handles :=
            (round_kept ended (follows k next).1 (follows k next).2).resolve_right
              (holds'.freed ▸ live k next)
          have unreleased : released s' (place (l.next handle)) = false := by
            cases next : l.next handle with
            | none => rfl
            | some k => simpa [place, released] using live k next
          simp only [Outcome.andThen, unreleased, Bool.false_eq_true, if_false]
          exact ih holds' _ still
      | fault s' => rfl
      | running s' => rfl

theorem run_silent (fuel : Nat) {s : BtTimerList} {l : Line} (holds : Holds s l) (ops : List Op) :
    run (fun _ => []) fuel s ops = Timer.run fuel s ops := by
  induction ops generalizing s l with
  | nil => rfl
  | cons op ops ih =>
    have same : exec (fun _ => []) fuel s op = Timer.exec fuel s op := by
      cases op with
      | tick =>
        rw [exec, Timer.exec, btTimerFunc, BtTimerList.btTimerFunc, first_place holds]
        exact tickLoop_silent fuel holds _ first_listed
      | _ => rfl
    have step := exec_matches (fun _ => []) fuel holds op
    rw [run, Timer.run, same] at *
    cases outcome : Timer.exec fuel s op with
    | returned s' =>
      rw [outcome] at step
      generalize l.exec (fun _ => []) fuel op = line at step
      cases step with
      | returned holds' => exact ih holds'
    | fault s' => rfl
    | running s' => rfl

end Silent

/-- With callbacks that make no calls this is the list without them. -/
theorem calling_run_refines (fuel : Nat) (ops : List Op) :
    (∀ callbacks, Matches (run callbacks fuel btTimerInit ops)
      (Line.initial.run callbacks fuel ops)) ∧
    run (fun _ => []) fuel btTimerInit ops = Timer.run fuel btTimerInit ops :=
  ⟨fun callbacks => run_matches callbacks fuel initial_holds ops,
    run_silent fuel initial_holds ops⟩

end BTServer.Timer.Calling
