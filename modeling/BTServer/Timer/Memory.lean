import BTServer.Timer.Handles
import BTServer.Timer.Unlink

set_option autoImplicit false

namespace BTServer.Timer

open LinkedList BtTimerList

-- A single-shot timer that expired is off the list, and nothing frees its block any more.
def Lost (records : List Record) (handle : Nat) : Prop :=
  ∃ r, records[handle]? = some r ∧ r.deleted = false ∧ r.type = .btTimerSingle ∧
    max 1 r.interval.toNat ≤ r.age

def Op.frees : Op → List Nat
  | .del handle => [handle]
  | _ => []

theorem exec_freed (fuel : Nat) {s s' : BtTimerList} {ts : List Listed} (op : Op)
    (rep : Represents s ts) (ordered : Ordered ts) (result : exec fuel s op = .returned s') :
    s'.freed = s.freed ++ op.frees := by
  cases op with
  | add func data interval type =>
    obtain rfl := Outcome.returned.inj result
    exact (List.append_nil _).symm
  | update handle =>
    simp only [exec, btTimerUpdate, BtTimerList.listDel] at result
    split at result
    next =>
      obtain rfl := Outcome.returned.inj result
      exact (List.append_nil _).symm
    next => exact Outcome.noConfusion result
  | del handle =>
    simp only [exec, btTimerDel, BtTimerList.listDel] at result
    split at result
    next =>
      obtain rfl := Outcome.returned.inj result
      rfl
    next => exact Outcome.noConfusion result
  | tick =>
    obtain ⟨after, agrees, outcome⟩ := btTimerFunc_correct fuel rep ordered
    rw [show s.btTimerFunc fuel = _ from result] at outcome
    split at outcome
    next =>
      obtain rfl := Outcome.returned.inj outcome
      exact agrees.freed.trans (List.append_nil _).symm
    next => exact Outcome.noConfusion outcome

structure FreesDeleted (records : List Record) (freed : List Nat) : Prop where
  once : freed.Nodup
  deleted : ∀ handle, handle ∈ freed ↔ ∃ r, records[handle]? = some r ∧ r.deleted = true

theorem remember_deleted (records : List Record) (op : Op) (handle : Nat) :
    (∃ r, (remember records op)[handle]? = some r ∧ r.deleted = true) ↔
      (∃ r, records[handle]? = some r ∧ r.deleted = true) ∨
        handle ∈ op.frees ∧ handle < records.length := by
  cases op with
  | add func data interval type =>
    simp only [remember, Op.frees, List.not_mem_nil, false_and, or_false]
    rcases Nat.lt_trichotomy handle records.length with inside | rfl | outside
    · rw [List.getElem?_append_left inside]
    · simp
    · rw [List.getElem?_eq_none (by simp; omega), List.getElem?_eq_none (by omega)]
  | update target =>
    simp only [remember, Op.frees, List.not_mem_nil, false_and, or_false]
    by_cases same : target = handle
    · subst same
      rw [List.getElem?_modify_eq]
      simp
    · rw [List.getElem?_modify_ne _ _ same]
  | del target =>
    simp only [remember, Op.frees, List.mem_singleton]
    by_cases same : target = handle
    · subst same
      rw [List.getElem?_modify_eq]
      by_cases inside : target < records.length
      · simp [inside]
      · simp [inside]
    · rw [List.getElem?_modify_ne _ _ same]
      simp [Ne.symm same]
  | tick => simp [remember, Op.frees]

theorem run_freed (fuel : Nat) (ops : List Op) (s : BtTimerList)
    (ran : run fuel btTimerInit ops = .returned s) : FreesDeleted (history ops) s.freed := by
  induction ops using List.reverseRecOn generalizing s with
  | nil =>
    obtain rfl := Outcome.returned.inj ran
    exact ⟨List.nodup_nil, fun handle => by simp [history, btTimerInit]⟩
  | append_singleton ops op ih =>
    obtain ⟨s₁, earlier, step⟩ := run_append_one fuel _ _ ops op ran
    obtain ⟨ts, rep, ordered, tracked, -⟩ := run_tracks fuel ops s₁ earlier
    obtain ⟨once, deleted⟩ := ih s₁ earlier
    -- A timer that is deleted was on the list, so it had not been deleted before.
    have live : ∀ handle ∈ op.frees, ∃ r, (history ops)[handle]? = some r ∧ r.deleted = false := by
      cases op with
      | del target =>
        rintro handle member
        obtain rfl := List.mem_singleton.mp member
        have listed : handle ∈ ts.map Listed.handle := by
          by_contra absent
          rw [exec_not_listed fuel (.del handle) rep handle (.inr rfl) absent] at step
          exact Outcome.noConfusion step
        obtain ⟨t, inside, rfl⟩ := List.mem_map.mp listed
        obtain ⟨r, found, -, -, kept, -⟩ := tracked t inside
        exact ⟨r, found, kept⟩
      | _ => simp [Op.frees]
    rw [exec_freed fuel op rep ordered step, history_append]
    constructor
    · refine List.nodup_append.mpr ⟨once, by cases op <;> simp [Op.frees], ?_⟩
      rintro handle before other now rfl
      obtain ⟨r, found, kept⟩ := live handle now
      obtain ⟨r', found', gone⟩ := (deleted handle).mp before
      obtain rfl := Option.some.inj (found.symm.trans found')
      exact Bool.noConfusion (kept.symm.trans gone)
    · intro handle
      rw [List.mem_append, remember_deleted, deleted]
      refine or_congr_right ⟨fun now => ⟨now, ?_⟩, And.left⟩
      obtain ⟨r, found, -⟩ := live handle now
      exact (List.getElem?_eq_some_iff.mp found).1

theorem finitLoop_frees {s : BtTimerList} {ts : List Listed} (rep : Represents s ts) :
    ∃ s', finitLoop ts.length s (cursor ts) (s.links (cursor ts)).next = .returned s' ∧
      s'.freed = s.freed ++ ts.map Listed.handle := by
  induction ts generalizing s with
  | nil => exact ⟨s, rfl, (List.append_nil _).symm⟩
  | cons t ts ih =>
    have whole : Represents s ([] ++ t :: ts) := rep
    obtain ⟨s₁, deleted, rep₁, -⟩ := btTimerDel_correct whole
    have freed : s₁.freed = s.freed ++ [t.handle] := by
      rw [btTimerDel_links whole] at deleted
      rw [← Outcome.returned.inj deleted]
    obtain ⟨s', loop, all⟩ := ih rep₁
    have next : (s.links (.timer t.handle)).next = cursor ts := Ring.next_of_split [] rep.ring
    refine ⟨s', ?_, ?_⟩
    · rw [show cursor (t :: ts) = .timer t.handle from rfl, next]
      simp only [List.length_cons, finitLoop, deleted, Outcome.andThen]
      exact loop
    · rw [all, freed]
      simp

/-- When the timers are shut down, every block has been freed once, but for those of the
single-shot timers that expired and were not deleted. -/
theorem finit_frees_all_but_expired (fuel : Nat) (ops : List Op) (s : BtTimerList)
    (ran : run fuel btTimerInit ops = .returned s) :
    ∃ steps s', s.btTimerFinit steps = .returned s' ∧ s'.freed.Nodup ∧
      ∀ handle, handle ∈ s'.freed ↔
        handle < (history ops).length ∧ ¬ Lost (history ops) handle := by
  obtain ⟨ts, rep, ordered, tracked, covers⟩ := run_tracks fuel ops s ran
  obtain ⟨once, deleted⟩ := run_freed fuel ops s ran
  obtain ⟨s', loop, freed⟩ := finitLoop_frees rep
  have start : (s.links .timerList).next = cursor ts := rep.ring.next_head
  refine ⟨ts.length, _, by rw [btTimerFinit, start, loop]; rfl, ?_, fun handle => ?_⟩
  · simp only [freed]
    refine List.nodup_append.mpr ⟨once, rep.nodup, ?_⟩
    rintro handle before other listed rfl
    obtain ⟨r, found, kept, -⟩ := (listed_iff_live ordered tracked covers handle).mp listed
    obtain ⟨r', found', gone⟩ := (deleted handle).mp before
    obtain rfl := Option.some.inj (found.symm.trans found')
    exact Bool.noConfusion (kept.symm.trans gone)
  · simp only [freed, List.mem_append, deleted, listed_iff_live ordered tracked covers]
    constructor
    · rintro (⟨r, found, gone⟩ | ⟨r, found, kept, live⟩)
      · refine ⟨(List.getElem?_eq_some_iff.mp found).1, ?_⟩
        rintro ⟨r', found', kept, -⟩
        obtain rfl := Option.some.inj (found.symm.trans found')
        exact Bool.noConfusion (kept.symm.trans gone)
      · refine ⟨(List.getElem?_eq_some_iff.mp found).1, ?_⟩
        rintro ⟨r', found', -, single, late⟩
        obtain rfl := Option.some.inj (found.symm.trans found')
        rcases live with again | early
        · exact BtTimerType.noConfusion (single.symm.trans again)
        · omega
    · rintro ⟨inside, safe⟩
      have found : (history ops)[handle]? = some (history ops)[handle] :=
        List.getElem?_eq_getElem inside
      cases gone : (history ops)[handle].deleted with
      | true => exact .inl ⟨_, found, gone⟩
      | false =>
        refine .inr ⟨_, found, gone, ?_⟩
        cases kind : (history ops)[handle].type with
        | btTimerRepeat => exact .inl rfl
        | btTimerSingle =>
          refine .inr (Nat.not_le.mp fun late => safe ⟨_, found, gone, kind, late⟩)

-- The first timer expires and is lost, the second is freed.
theorem finit_frees_all_but_expired_of_two : ∃ steps s',
    (run 5 btTimerInit [.add 7 0 1 .btTimerSingle, .add 8 0 3 .btTimerRepeat, .tick]).state.btTimerFinit
      steps = .returned s' ∧ 0 ∉ s'.freed ∧ 1 ∈ s'.freed := by
  obtain ⟨steps, s', shut, -, freed⟩ := finit_frees_all_but_expired 5
    [.add 7 0 1 .btTimerSingle, .add 8 0 3 .btTimerRepeat, .tick] _ rfl
  refine ⟨steps, s', shut, fun member => ?_, (freed 1).mpr ⟨by decide, ?_⟩⟩
  · exact ((freed 0).mp member).2 ⟨⟨.btTimerSingle, 1, 1, false⟩, rfl, rfl, rfl, by decide⟩
  · rintro ⟨r, found, -, single, -⟩
    obtain rfl : (⟨.btTimerRepeat, 3, 1, false⟩ : Record) = r := Option.some.inj found
    exact BtTimerType.noConfusion single

end BTServer.Timer
