import BTServer.Shared.Renaming
import BTServer.Timer.Handles

set_option autoImplicit false

namespace BTServer.Timer

open LinkedList BtTimerList

-- The functions on the memory of a whole process. It has the blocks of the timers of all lists, so
-- a pointer may lead to a timer of an earlier list, to a freed one or nowhere. `base` timers were
-- added before the list in use began: `timer_list.num` is `num - base`.
namespace Static

/-- `list_add_tail` writes through `head` and through the node before it. -/
def listAddTail (s : BtTimerList) (new head : Ptr) : Outcome :=
  if head.Valid && (s.links head).prev.Valid then .returned (s.listAddTail new head) else .fault s

-- `get_position` stops at the list head or at a larger interval. A walk that has done neither after
-- more timers than there are goes round for ever.
def linkIn (s : BtTimerList) (handle : Nat) (interval : Int32) : Outcome :=
  match s.getPosition interval with
  | .timer vec =>
    if (s.timers vec).interval > interval.toUInt32 then listAddTail s (.timer handle) (.timer vec)
    else .running s
  | pos => listAddTail s (.timer handle) pos

def tickBody (s : BtTimerList) (handle : Nat) : Outcome :=
  let s := s.increment handle
  let vec := s.timers handle
  if vec.elapse ≥ vec.interval then
    ((s.expire handle).listDel (.timer handle)).andThen fun s =>
      if vec.type ≠ .btTimerSingle then linkIn s handle vec.interval.toInt32 else .returned s
  else .returned s

def tickLoop : Nat → BtTimerList → Ptr → Ptr → Outcome
  | _, s, .timerList, _ => .returned s
  | 0, s, _, _ => .running s
  | fuel + 1, s, .timer handle, n =>
    (tickBody s handle).andThen fun s => tickLoop fuel s n (s.links n).next
  | _ + 1, s, _, _ => .fault s

/-- The first `n = pos->next` of `list_for_each_entry_safe` reads through the list head's `next`. -/
def forEachSafe (s : BtTimerList) (loop : BtTimerList → Ptr → Ptr → Outcome) : Outcome :=
  let pos := (s.links .timerList).next
  if pos.Valid then loop s pos (s.links pos).next else .fault s

def btTimerFunc (fuel : Nat) (s : BtTimerList) : Outcome := forEachSafe s (tickLoop fuel)

/-- Only the list head is written. -/
def btTimerInit (s : BtTimerList) : BtTimerList :=
  { s with links := initListHead s.links .timerList }

def btTimerAdd (base : Nat) (s : BtTimerList) (func data : Nat) (interval : UInt32)
    (type : BtTimerType) : Outcome :=
  let handle := s.num
  let ptr : BtTimer :=
    { timerId := UInt32.ofNat (s.num - base), callback := func, data, type, elapse := 0, interval }
  let s := { s.setTimer handle ptr with
    links := Function.update s.links (.timer handle) ⟨.null, .null⟩
    num := s.num + 1 }
  linkIn s handle interval.toInt32

def btTimerUpdate (s : BtTimerList) (handle : Nat) : Outcome :=
  (s.listDel (.timer handle)).andThen fun s =>
    let ptr := { s.timers handle with elapse := 0 }
    linkIn (s.setTimer handle ptr) handle ptr.interval.toInt32

def btTimerFinit (fuel : Nat) (s : BtTimerList) : Outcome :=
  (forEachSafe s (finitLoop fuel)).andThen fun s =>
    .returned { s with links := Function.update s.links .timerList ⟨.null, .null⟩ }

def exec (fuel base : Nat) (s : BtTimerList) : Op → Outcome
  | .add func data interval type => btTimerAdd base s func data interval type
  | .update handle => btTimerUpdate s handle
  | .del handle => s.btTimerDel handle
  | .tick => btTimerFunc fuel s

end Static

def Ptr.shift (base : Nat) : Ptr → Ptr
  | .timer handle => .timer (handle + base)
  | p => p

def Ptr.Below (num : Nat) : Ptr → Prop
  | .timerList => True
  | .timer handle => handle < num
  | _ => False

@[simp] theorem Ptr.shift_timer (base handle : Nat) :
    (Ptr.timer handle).shift base = .timer (handle + base) := rfl

@[simp] theorem Ptr.shift_valid (base : Nat) (p : Ptr) : (p.shift base).Valid = p.Valid := by
  cases p <;> rfl

theorem Ptr.shift_injective (base : Nat) : Function.Injective (Ptr.shift base) := by
  intro p q same
  cases p <;> cases q <;> simp_all [Ptr.shift]

theorem Ptr.shift_ne {base handle : Nat} (earlier : handle < base) (p : Ptr) :
    Ptr.timer handle ≠ p.shift base := by
  cases p with
  | timer other =>
    simp only [Ptr.shift_timer, ne_eq, Ptr.timer.injEq]
    omega
  | _ => exact Ptr.noConfusion

theorem Ptr.eq_of_below_zero {p : Ptr} (below : p.Below 0) : p = .timerList := by
  cases p with
  | timerList => rfl
  | timer handle => exact absurd below (Nat.not_lt_zero _)
  | _ => exact below.elim

theorem Ptr.below_of_ne {num : Nat} {p : Ptr} (below : p.Below (num + 1)) (other : p ≠ .timer num) :
    p.Below num := by
  cases p with
  | timer handle =>
    have apart : handle ≠ num := by simpa using other
    exact Nat.lt_of_le_of_ne (Nat.le_of_lt_succ below) apart
  | _ => exact below

def Invocation.shift (base : Nat) (i : Invocation) : Invocation :=
  { i with handle := i.handle + base }

def Listed.shift (base : Nat) (t : Listed) : Listed := { t with handle := t.handle + base }

def Op.shift (base : Nat) : Op → Op
  | .update handle => .update (handle + base)
  | .del handle => .del (handle + base)
  | op => op

/-- The operation names a timer that was added. -/
def Op.Names (num : Nat) : Op → Prop
  | .update handle => handle < num
  | .del handle => handle < num
  | _ => True

namespace Static

-- The memory `m` has the list `s` from `base` on. The timers below `base`, and the callbacks run so
-- far, are as they were in `before`.
structure Carries (base : Nat) (before s m : BtTimerList) : Prop where
  links : Renamed (Ptr.shift base) (Ptr.Below s.num) s.links m.links
  timers : ∀ handle < s.num, m.timers (handle + base) = s.timers handle
  num : m.num = s.num + base
  invoked : m.invoked = before.invoked ++ s.invoked.map (Invocation.shift base)
  earlier : ∀ handle < base, m.links (.timer handle) = before.links (.timer handle)

inductive Follows (rel : BtTimerList → BtTimerList → Prop) : Outcome → Outcome → Prop
  | returned {s m : BtTimerList} (related : rel s m) : Follows rel (.returned s) (.returned m)
  | fault {s m : BtTimerList} : Follows rel (.fault s) (.fault m)
  | running {s m : BtTimerList} : Follows rel (.running s) (.running m)

section Follows

variable {rel rel' : BtTimerList → BtTimerList → Prop} {o o' : Outcome}

theorem Follows.andThen {f g : BtTimerList → Outcome} (first : Follows rel o o')
    (next : ∀ s m, o = .returned s → rel s m → Follows rel' (f s) (g m)) :
    Follows rel' (o.andThen f) (o'.andThen g) := by
  cases first with
  | returned related => exact next _ _ rfl related
  | fault => exact .fault
  | running => exact .running

theorem Follows.of_returned {m : BtTimerList} (follows : Follows rel o (.returned m)) :
    ∃ s, o = .returned s ∧ rel s m := by
  cases follows with
  | returned related => exact ⟨_, rfl, related⟩

end Follows

section Carries

variable {base : Nat} {before s m : BtTimerList} {ts : List Listed}

theorem btTimerInit_carries (s : BtTimerList) :
    Carries s.num s BtTimerList.btTimerInit (btTimerInit s) := by
  have head (links : Links Ptr) : initListHead links .timerList .timerList =
      ⟨Ptr.timerList, Ptr.timerList⟩ := by
    ext <;> simp [initListHead]
  refine ⟨⟨Ptr.shift_injective _, ?_, ?_⟩, ?_, ?_, ?_, ?_⟩
  · intro p below
    obtain rfl := Ptr.eq_of_below_zero below
    simp only [Ptr.shift, btTimerInit, BtTimerList.btTimerInit, head]
  · intro p below
    obtain rfl := Ptr.eq_of_below_zero below
    simp only [Ptr.shift, btTimerInit, BtTimerList.btTimerInit, head]
  · intro handle below
    exact absurd below (Nat.not_lt_zero _)
  · exact (Nat.zero_add _).symm
  · exact (List.append_nil _).symm
  · intro handle _
    ext <;> simp [btTimerInit, initListHead]

theorem below_of_mem (rep : Represents s ts) (p : Ptr)
    (member : p ∈ Ptr.timerList :: ts.map Listed.ptr) : p.Below s.num := by
  rcases List.mem_cons.mp member with rfl | member
  · exact True.intro
  · obtain ⟨t, inside, rfl⟩ := List.mem_map.mp member
    exact rep.bounded t inside

theorem Carries.setTimer (carries : Carries base before s m) (handle : Nat) (t : BtTimer) :
    Carries base before (s.setTimer handle t) (m.setTimer (handle + base) t) := by
  refine ⟨carries.links, fun other below => ?_, carries.num, carries.invoked, carries.earlier⟩
  by_cases same : other = handle
  · simp [BtTimerList.setTimer, same]
  · have apart : other + base ≠ handle + base := by omega
    simp only [BtTimerList.setTimer, Function.update_of_ne same, Function.update_of_ne apart]
    exact carries.timers other below

theorem Carries.increment {handle : Nat} (carries : Carries base before s m)
    (below : handle < s.num) :
    Carries base before (s.increment handle) (m.increment (handle + base)) := by
  have set := carries.setTimer handle
    { s.timers handle with elapse := (s.timers handle).elapse + 1 }
  simp only [BtTimerList.increment, carries.timers handle below]
  exact ⟨set.links, set.timers, set.num, set.invoked, set.earlier⟩

theorem Carries.expire {handle : Nat} (carries : Carries base before s m)
    (below : handle < s.num) :
    Carries base before (s.expire handle) (m.expire (handle + base)) := by
  have set := carries.setTimer handle { s.timers handle with elapse := 0 }
  simp only [BtTimerList.expire, carries.timers handle below]
  refine ⟨set.links, set.timers, set.num, ?_, set.earlier⟩
  simp [carries.invoked, Invocation.shift]

theorem Carries.listDel {handle : Nat} (carries : Carries base before s m)
    (below : handle < s.num) :
    Follows (Carries base before) (s.listDel (.timer handle))
      (m.listDel (.timer (handle + base))) := by
  have next : (m.links (.timer (handle + base))).next = _ := carries.links.next (.timer handle) below
  have prev : (m.links (.timer (handle + base))).prev = _ := carries.links.prev (.timer handle) below
  simp only [BtTimerList.listDel, next, prev, Ptr.shift_valid]
  split
  next =>
    refine .returned ⟨carries.links.listDel (.timer handle) below _ _, carries.timers, carries.num,
      carries.invoked, fun other earlier => ?_⟩
    rw [← carries.earlier other earlier]
    refine listDel_apart _ _ (Ptr.shift_ne earlier (.timer handle)) ?_ ?_
    · rw [prev]
      exact Ptr.shift_ne earlier _
    · rw [next]
      exact Ptr.shift_ne earlier _
  next => exact .fault

theorem Carries.btTimerDel {handle : Nat} (carries : Carries base before s m)
    (below : handle < s.num) :
    Follows (Carries base before) (s.btTimerDel handle) (m.btTimerDel (handle + base)) := by
  refine (carries.listDel below).andThen fun s₁ m₁ _ carries₁ => .returned ?_
  exact ⟨carries₁.links, carries₁.timers, carries₁.num, carries₁.invoked, carries₁.earlier⟩

theorem cursor_shift (ts : List Listed) :
    cursor (ts.map (Listed.shift base)) = (cursor ts).shift base := by
  cases ts <;> rfl

theorem Carries.ring (carries : Carries base before s m) (rep : Represents s ts) :
    Ring m.links .timerList ((ts.map (Listed.shift base)).map Listed.ptr) := by
  have ring := carries.links.ring rep.ring (below_of_mem rep)
  rw [List.map_map] at ring ⊢
  exact ring

theorem Carries.getPosition (carries : Carries base before s m) (rep : Represents s ts)
    (t : Listed) : m.getPosition t.timer.interval.toInt32 =
      (cursor (ts.dropWhile (notAfter t))).shift base := by
  have start : (m.links .timerList).next = cursor (ts.map (Listed.shift base)) :=
    (carries.ring rep).next_head
  have stored : ∀ u ∈ ts.map (Listed.shift base), m.timers u.handle = u.timer := by
    intro u member
    obtain ⟨v, inside, rfl⟩ := List.mem_map.mp member
    exact (carries.timers v.handle (rep.bounded v inside)).trans (rep.fields v inside)
  have enough : (ts.map (Listed.shift base)).length < m.num + 1 := by
    have := rep.length_le
    rw [List.length_map, carries.num]
    omega
  rw [BtTimerList.getPosition, start,
    getPositionFrom_correct m _ [] _ _ (carries.ring rep) stored enough, List.dropWhile_map,
    cursor_shift, UInt32.toUInt32_toInt32]
  rfl

theorem Carries.listAddTail {front back : List Listed} (carries : Carries base before s m)
    (rep : Represents s (front ++ back)) (new : Nat) :
    Follows (Carries base before) (.returned (s.listAddTail (.timer new) (cursor back)))
      (listAddTail m (.timer (new + base)) ((cursor back).shift base)) := by
  -- The position is a node of the list, and so is the one before it.
  have ring := rep.ring
  rw [List.map_append] at ring
  obtain ⟨lastIn, firstIn⟩ := sides_mem Ptr.timerList (front.map Listed.ptr) (back.map Listed.ptr)
  rw [← ring.prev_of_split, ← List.map_append] at lastIn
  rw [← List.map_append] at firstIn
  have inside := below_of_mem rep (cursor back) firstIn
  have prev := carries.links.prev (cursor back) inside
  have good : (cursor back).Valid = true ∧ (s.links (cursor back)).prev.Valid = true :=
    ⟨pointers_valid _ _ firstIn, pointers_valid _ _ lastIn⟩
  rw [Static.listAddTail, prev, Ptr.shift_valid, Ptr.shift_valid, good.1, good.2]
  refine .returned ⟨carries.links.listAddTail inside, carries.timers, carries.num,
    carries.invoked, fun other earlier => ?_⟩
  rw [← carries.earlier other earlier]
  refine listAddTail_apart (Ptr.shift_ne earlier (.timer new)) (Ptr.shift_ne earlier _) ?_
  rw [prev]
  exact Ptr.shift_ne earlier _

theorem Carries.linkIn (carries : Carries base before s m) (rep : Represents s ts) (t : Listed) :
    Follows (Carries base before)
      (.returned (s.listAddTail t.ptr (s.getPosition t.timer.interval.toInt32)))
      (linkIn m (t.handle + base) t.timer.interval.toInt32) := by
  have whole : Represents s (ts.takeWhile (notAfter t) ++ ts.dropWhile (notAfter t)) := by
    rwa [List.takeWhile_append_dropWhile]
  have added := carries.listAddTail whole t.handle
  rw [getPosition_correct rep t, Static.linkIn, carries.getPosition rep t]
  cases rest : ts.dropWhile (notAfter t) with
  | nil =>
    rw [rest] at added
    exact added
  | cons u us =>
    rw [rest] at added
    have larger : ¬ notAfter t u = true := by
      have := List.head_dropWhile_not (notAfter t) (l := ts) (by simp [rest])
      simpa [rest] using this
    have member : u ∈ ts := List.dropWhile_subset _ (rest ▸ List.mem_cons_self)
    have stored : (m.timers (u.handle + base)).interval > t.timer.interval.toInt32.toUInt32 := by
      rw [carries.timers u.handle (rep.bounded u member), rep.fields u member,
        UInt32.toUInt32_toInt32]
      exact (by simpa [notAfter] using larger : t.interval < u.interval)
    have here : (cursor (u :: us)).shift base = .timer (u.handle + base) := rfl
    rw [here] at added ⊢
    simp only [if_pos stored]
    exact added

theorem Carries.btTimerUpdate {handle : Nat} (carries : Carries base before s m)
    (rep : Represents s ts) (below : handle < s.num) :
    Follows (Carries base before) (s.btTimerUpdate handle) (btTimerUpdate m (handle + base)) := by
  refine (carries.listDel below).andThen fun deleted m₁ deletion carries₁ => ?_
  obtain ⟨front, t, back, rfl, rfl⟩ : ∃ front t back, ts = front ++ t :: back ∧ t.handle = handle := by
    refine split_of_handle ?_
    by_contra absent
    rw [rep.listDel_fault handle absent] at deletion
    exact Outcome.noConfusion deletion
  obtain ⟨after, returned, rep', timers, num, -⟩ := rep.listDel
  obtain rfl : after = deleted := Outcome.returned.inj (returned.symm.trans deletion)
  have here : t.handle < after.num := num ▸ below
  have stored : after.timers t.handle = t.timer := by
    rw [timers]
    exact rep.fields t (by simp)
  simp only [stored, carries₁.timers t.handle here]
  exact (carries₁.setTimer t.handle t.reset.timer).linkIn
    (rep'.setTimer_absent (handle_absent rep.nodup) t.reset.timer) t.reset

theorem Carries.tickBody {front back : List Listed} {t : Listed}
    (carries : Carries base before s m) (rep : Represents s (front ++ t :: back)) :
    Follows (Carries base before) (s.tickBody t.handle) (tickBody m (t.handle + base)) := by
  have below : t.handle < s.num := rep.bounded t (by simp)
  have now : (s.increment t.handle).timers t.handle = t.counted.timer :=
    rep.increment.fields t.counted (by simp)
  have counted := carries.increment below
  have same : (m.increment (t.handle + base)).timers (t.handle + base) = t.counted.timer :=
    (counted.timers t.handle below).trans now
  simp only [BtTimerList.tickBody, Static.tickBody, now, same]
  split
  next =>
    refine ((counted.expire below).listDel below).andThen fun deleted m₁ deletion carries₁ => ?_
    obtain ⟨after, returned, rep', -⟩ := rep.increment.expire.listDel
    obtain rfl : after = deleted := Outcome.returned.inj (returned.symm.trans deletion)
    split
    next => exact carries₁.linkIn rep' t.reset
    next => exact .returned carries₁
  next => exact .returned counted

theorem Carries.tickLoop (fuel : Nat) {start : BtTimerList} {w : Sweep}
    (carries : Carries base before s m) (agrees : Agrees start s w) (ordered : Ordered w.all) :
    Follows (Carries base before)
      (BtTimerList.tickLoop fuel s (cursor w.todo) (s.links (cursor w.todo)).next)
      (tickLoop fuel m ((cursor w.todo).shift base)
        (m.links ((cursor w.todo).shift base)).next) := by
  induction fuel generalizing s m w with
  | zero =>
    cases w.todo with
    | nil => exact .returned carries
    | cons t rest => exact .running
  | succ fuel ih =>
    cases next : w.todo with
    | nil => exact .returned carries
    | cons t rest =>
      have rep := agrees.rep
      simp only [Sweep.all, next] at rep
      have here : (s.links (.timer t.handle)).next = cursor rest :=
        agrees.rep.next_cursor t rest next
      have there : (m.links (.timer (t.handle + base))).next = (cursor rest).shift base := by
        rw [← here]
        exact carries.links.next (.timer t.handle) (rep.bounded t (by simp))
      rw [show cursor (t :: rest) = .timer t.handle from rfl, Ptr.shift_timer, here, there]
      refine (carries.tickBody rep).andThen fun s₁ m₁ body carries₁ => ?_
      obtain ⟨after, returned, agrees₁⟩ := tickBody_step agrees ordered t rest next
      obtain rfl : after = s₁ := Outcome.returned.inj (returned.symm.trans body)
      rw [← cursor_step w t rest next]
      exact ih carries₁ agrees₁ (w.step_ordered ordered)

theorem Carries.finitLoop (fuel : Nat) (carries : Carries base before s m)
    (rep : Represents s ts) :
    Follows (Carries base before)
      (finitLoop fuel s (cursor ts) (s.links (cursor ts)).next)
      (finitLoop fuel m ((cursor ts).shift base) (m.links ((cursor ts).shift base)).next) := by
  induction fuel generalizing s m ts with
  | zero =>
    cases ts with
    | nil => exact .returned carries
    | cons t rest => exact .running
  | succ fuel ih =>
    cases ts with
    | nil => exact .returned carries
    | cons t rest =>
      have below : t.handle < s.num := rep.bounded t (by simp)
      have here : (s.links (.timer t.handle)).next = cursor rest := Ring.next_of_split [] rep.ring
      have there : (m.links (.timer (t.handle + base))).next = (cursor rest).shift base := by
        rw [← here]
        exact carries.links.next (.timer t.handle) below
      rw [show cursor (t :: rest) = .timer t.handle from rfl, Ptr.shift_timer, here, there]
      refine (carries.btTimerDel below).andThen fun s₁ m₁ body carries₁ => ?_
      have whole : Represents s ([] ++ t :: rest) := rep
      obtain ⟨after, returned, rep₁, -⟩ := btTimerDel_correct whole
      obtain rfl : after = s₁ := Outcome.returned.inj (returned.symm.trans body)
      exact ih carries₁ rep₁

theorem Carries.forEachSafe {rel : BtTimerList → BtTimerList → Prop} {o : Outcome}
    {loop : BtTimerList → Ptr → Ptr → Outcome} (carries : Carries base before s m)
    (rep : Represents s ts)
    (follows : Follows rel o
      (loop m ((cursor ts).shift base) (m.links ((cursor ts).shift base)).next)) :
    Follows rel o (forEachSafe m loop) := by
  have start : (m.links .timerList).next = (cursor ts).shift base := by
    rw [← cursor_shift]
    exact (carries.ring rep).next_head
  have valid : (cursor ts).Valid = true := by
    cases ts <;> rfl
  rw [Static.forEachSafe, start, Ptr.shift_valid, valid, if_pos rfl]
  exact follows

theorem Carries.btTimerFinit {fuel : Nat} {m' : BtTimerList} (carries : Carries base before s m)
    (rep : Represents s ts) (result : btTimerFinit fuel m = .returned m') :
    (m'.links .timerList).next = .null ∧ m'.num = m.num ∧
      (∀ handle < base, m'.links (.timer handle) = before.links (.timer handle)) ∧
      ∀ handle < s.num, (m'.links (.timer (handle + base))).next.Valid = false := by
  have follows := carries.forEachSafe rep (carries.finitLoop fuel rep)
  rw [Static.btTimerFinit] at result
  cases walked : Static.forEachSafe m (BtTimerList.finitLoop fuel) with
  | returned m₁ =>
    rw [walked] at follows result
    obtain ⟨s₁, ended, carries₁⟩ := follows.of_returned
    obtain rfl := Outcome.returned.inj result
    obtain ⟨after, rep', num, loop⟩ := finitLoop_correct fuel rep
    rw [ended] at loop
    split at loop
    next none =>
      obtain rfl := Outcome.returned.inj loop
      rw [none] at rep'
      refine ⟨by simp, by rw [carries.num, ← num]; exact carries₁.num, fun handle earlier => ?_,
        fun handle below => ?_⟩
      · rw [← carries₁.earlier handle earlier]
        simp
      · have next : (m₁.links (.timer (handle + base))).next = _ :=
          carries₁.links.next (.timer handle) (num ▸ below)
        simp only [ne_eq, reduceCtorEq, not_false_eq_true, Function.update_of_ne, next,
          Ptr.shift_valid]
        exact rep'.unlinked handle List.not_mem_nil
    next => exact Outcome.noConfusion loop
  | fault m₁ =>
    rw [walked] at result
    exact Outcome.noConfusion result
  | running m₁ =>
    rw [walked] at result
    exact Outcome.noConfusion result

theorem Carries.btTimerAdd (carries : Carries base before s m) (rep : Represents s ts)
    (func data : Nat) (interval : UInt32) (type : BtTimerType) :
    Follows (Carries base before) (.returned (s.btTimerAdd func data interval type))
      (btTimerAdd base m func data interval type) := by
  simp only [Static.btTimerAdd, carries.num, Nat.add_sub_cancel]
  have filled := rep.filled (newTimer s.num func data interval type).timer
  refine Carries.linkIn (s := { s.setTimer s.num _ with links := _, num := s.num + 1 }) ?_ filled
    (newTimer s.num func data interval type)
  refine ⟨carries.links.fill (fun p => Ptr.below_of_ne) .null .null, fun handle below => ?_, ?_,
    carries.invoked, ?_⟩
  · by_cases last : handle = s.num
    · simp [BtTimerList.setTimer, last, newTimer]
    · have apart : handle + base ≠ s.num + base := by omega
      simp only [BtTimerList.setTimer, Function.update_of_ne last, Function.update_of_ne apart]
      exact carries.timers handle (Nat.lt_of_le_of_ne (Nat.le_of_lt_succ below) last)
  · exact Nat.add_right_comm _ _ _
  · intro handle earlier
    rw [← carries.earlier handle earlier]
    exact Function.update_of_ne (Ptr.shift_ne earlier (.timer s.num)) _ _

/-- What a call does to the list in memory is what it does to the list on its own. -/
theorem Carries.exec (fuel : Nat) (carries : Carries base before s m) (rep : Represents s ts)
    (ordered : Ordered ts) (op : Op) (names : op.Names s.num) :
    Follows (Carries base before) (Timer.exec fuel s op) (exec fuel base m (op.shift base)) := by
  cases op with
  | add func data interval type => exact carries.btTimerAdd rep func data interval type
  | update handle => exact carries.btTimerUpdate rep names
  | del handle => exact carries.btTimerDel names
  | tick =>
    refine carries.forEachSafe rep ?_
    rw [Timer.exec, BtTimerList.btTimerFunc,
      show (s.links .timerList).next = cursor ts from rep.ring.next_head]
    exact carries.tickLoop fuel rep.begin (by simpa [begin, Sweep.all] using ordered)

end Carries

section Empty

variable {s : BtTimerList}

theorem forEachSafe_null (empty : (s.links .timerList).next = .null)
    (loop : BtTimerList → Ptr → Ptr → Outcome) : forEachSafe s loop = .fault s := by
  simp [forEachSafe, empty, Ptr.Valid]

theorem btTimerAdd_null (empty : (s.links .timerList).next = .null) (base func data : Nat)
    (interval : UInt32) (type : BtTimerType) :
    ∃ s', btTimerAdd base s func data interval type = .fault s' := by
  simp [btTimerAdd, linkIn, BtTimerList.getPosition, empty, getPositionFrom, listAddTail, Ptr.Valid]

-- Nothing can be called for a list head without neighbours, but `bt_timer_init`.
theorem exec_null (empty : (s.links .timerList).next = .null) (fuel base : Nat) (op : Op)
    (names : op.Names 0) : ∃ s', exec fuel base s (op.shift base) = .fault s' := by
  cases op with
  | add func data interval type => exact btTimerAdd_null empty base func data interval type
  | update handle => exact absurd names (Nat.not_lt_zero _)
  | del handle => exact absurd names (Nat.not_lt_zero _)
  | tick => exact ⟨s, forEachSafe_null empty _⟩

theorem exec_loose {handle : Nat} (loose : (s.links (.timer handle)).next.Valid = false)
    (fuel base : Nat) : (∃ s', exec fuel base s (.update handle) = .fault s') ∧
      ∃ s', exec fuel base s (.del handle) = .fault s' := by
  simp [exec, btTimerUpdate, BtTimerList.btTimerDel, BtTimerList.listDel, loose, Outcome.andThen]

end Empty

end Static

end BTServer.Timer
