import BTServer.Socket.Sharing

set_option autoImplicit false

namespace BTServer.Socket

open SendQueue

def Op.frees (u : Nat) : Op → Bool
  | .free (some ptr) => ptr = u
  | _ => false

def Matched (ops : List Op) (q : SendQueue) : Prop :=
  ∀ u, u < q.unitCount → ops.countP (Op.frees u) = 1

structure SendQueue.Emptied (q : SendQueue) : Prop where
  units : q.sendUnitList = []
  bufs : q.sendBufList = []
  records : ∀ ptr, ptr < q.bufCount →
    q.freed.count (.sendBuf ptr) = 1 ∧ q.freed.count (.data (q.sendBufs ptr).buf) = 1

def SendQueue.Safe (q : SendQueue) : Prop :=
  ∀ u ∈ q.sendUnitList, .sendBuf (q.sendUnits u).buf ∉ q.freed ∧
    .data (q.sendBufs (q.sendUnits u).buf).buf ∉ q.freed

-- A unit starts with one reference; the call that takes it leaves the unit on the list.
structure Aged (ops : List Op) (q : SendQueue) : Prop where
  gets : q.unitCount = ops.countP Op.isGet
  early : ∀ u, q.unitCount ≤ u → ops.countP (Op.frees u) = 0
  refs : ∀ u ∈ q.sendUnitList, (q.sendUnits u).refCount + ops.countP (Op.frees u) = 1
  gone : ∀ u, u < q.unitCount → u ∉ q.sendUnitList → ops.countP (Op.frees u) = 2

theorem frees_append (ops : List Op) (op : Op) (u : Nat) :
    (ops ++ [op]).countP (Op.frees u) = ops.countP (Op.frees u) + if op.frees u then 1 else 0 := by
  simp [List.countP_append, List.countP_singleton]

theorem Aged.get {ops : List Op} {q q' : SendQueue} {op : Op} {buf buflen : Nat}
    (aged : Aged ops q) (counted : q.Counted) (taken : UnitTaken q q' buf buflen)
    (gets : op.isGet = true) (silent : ∀ u, op.frees u = false) : Aged (ops ++ [op]) q' := by
  have frees (u : Nat) : (ops ++ [op]).countP (Op.frees u) = ops.countP (Op.frees u) := by
    rw [frees_append, silent]
    rfl
  constructor
  · rw [gets_append, gets, taken.count, aged.gets]
    rfl
  · intro u new
    rw [frees]
    rw [taken.count] at new
    exact aged.early u (by omega)
  · intro u member
    rw [frees]
    rw [taken.list, List.mem_append, List.mem_singleton] at member
    rcases member with member | rfl
    · rw [taken.others u (Nat.ne_of_lt ((counted.live u).mp member).1)]
      exact aged.refs u member
    · rw [taken.refs, aged.early _ (Nat.le_refl _)]
  · intro u below absent
    rw [frees]
    rw [taken.list, List.mem_append, List.mem_singleton, not_or] at absent
    rw [taken.count] at below
    exact aged.gone u (by omega) absent.1

theorem Aged.free {ops : List Op} {q q' : SendQueue} {ptr : Nat} (aged : Aged ops q)
    (counted : q.Counted) (step : q.freeSendUnit (some ptr) = some q') :
    Aged (ops ++ [Op.free (some ptr)]) q' := by
  have other (u : Nat) (different : u ≠ ptr) :
      (ops ++ [Op.free (some ptr)]).countP (Op.frees u) = ops.countP (Op.frees u) := by
    simp [Op.frees, Ne.symm different]
  have here : (ops ++ [Op.free (some ptr)]).countP (Op.frees ptr) = ops.countP (Op.frees ptr) + 1 := by
    simp [Op.frees]
  have gets : (ops ++ [Op.free (some ptr)]).countP Op.isGet = ops.countP Op.isGet := by
    simp [Op.isGet]
  have listed := (freeSendUnit_cases counted step).1
  have age := aged.refs ptr listed
  have made := ((counted.live ptr).mp listed).1
  have early (u : Nat) (new : q.unitCount ≤ u) :
      (ops ++ [Op.free (some ptr)]).countP (Op.frees u) = 0 := by
    rw [other u (by omega)]
    exact aged.early u new
  obtain ⟨-, ⟨more, rfl⟩ | ⟨zero, rfl⟩⟩ := freeSendUnit_cases counted step
  · refine ⟨gets ▸ aged.gets, early, ?_, ?_⟩
    · intro u member
      by_cases same : u = ptr
      · subst same
        rw [here]
        simp only [delSendUnitRef, setSendUnit, Function.update_self]
        omega
      · rw [other u same]
        simp only [delSendUnitRef, setSendUnit, Function.update_of_ne same]
        exact aged.refs u member
    · intro u below absent
      rw [other u fun same => absent (same ▸ listed)]
      exact aged.gone u below absent
  · refine ⟨gets ▸ aged.gets, early, ?_, ?_⟩
    · intro u member
      obtain ⟨different, member⟩ := counted.units.mem_erase_iff.mp member
      rw [other u different]
      exact aged.refs u member
    · intro u below absent
      by_cases same : u = ptr
      · subst same
        rw [here]
        omega
      · rw [other u same]
        exact aged.gone u below fun member =>
          absent (counted.units.mem_erase_iff.mpr ⟨same, member⟩)

theorem SendQueue.Counted.safe {q : SendQueue} (counted : q.Counted) : q.Safe := by
  intro u _
  constructor
  · intro member
    obtain ⟨v, -, same⟩ := counted.onlyUnits _ member
    exact Block.noConfusion same
  · intro member
    obtain ⟨v, -, same⟩ := counted.onlyUnits _ member
    exact Block.noConfusion same

section Runs

variable {refBits : Nat} {mem : Nat → UInt8} {ops : List Op} {q : SendQueue}
  (ran : run (listHeadInit refBits mem) ops = some q) (fits : Fits refBits ops)

include ran fits

theorem run_aged : Aged ops q := by
  apply run_invariant (fun ops q => Fits refBits ops → Aged ops q) _ _ ops q ran fits
  · intro _
    constructor <;> simp [listHeadInit]
  · intro ops q op q' ran earlier step fits
    have aged := earlier fits.of_append
    have counted := run_counted ran fits.of_append
    have idle (isGet : op.isGet = false) (silent : ∀ u, op.frees u = false)
        (units : q'.sendUnits = q.sendUnits) (count : q'.unitCount = q.unitCount)
        (list : q'.sendUnitList = q.sendUnitList) : Aged (ops ++ [op]) q' := by
      constructor
      · simpa [gets_append, isGet, count] using aged.gets
      · simpa [frees_append, silent, count] using aged.early
      · simpa [frees_append, silent, units, list] using aged.refs
      · simpa [frees_append, silent, count, list] using aged.gone
    cases op with
    | get dest source buf buflen cb arg timeout retry =>
      obtain rfl := Option.some.inj step
      exact aged.get counted (getSendUnit_taken q counted (fits.room ran rfl) _ _ _ _ _ _ _ _) rfl
        fun _ => rfl
    | free ptr =>
      cases ptr with
      | none =>
        obtain rfl := Option.some.inj step
        exact idle rfl (fun _ => rfl) rfl rfl rfl
      | some ptr => exact aged.free counted step
    | write addr byte =>
      obtain rfl := Option.some.inj step
      exact idle rfl (fun _ => rfl) rfl rfl rfl

theorem run_without_gets (none : ∀ op ∈ ops, op.isGet = false) :
    q.sendUnitList = [] ∧ q.sendBufList = [] ∧ q.bufCount = 0 := by
  apply run_invariant (fun ops q => Fits refBits ops → (∀ op ∈ ops, op.isGet = false) →
    q.sendUnitList = [] ∧ q.sendBufList = [] ∧ q.bufCount = 0) _ _ ops q ran fits none
  · intro _ _
    exact ⟨rfl, rfl, rfl⟩
  · intro ops q op q' ran empty step fits none
    have before := empty fits.of_append fun op member => none op (List.mem_append_left _ member)
    cases op with
    | get dest source buf buflen cb arg timeout retry =>
      exact Bool.noConfusion (none _ (List.mem_append_right _ (List.mem_singleton.mpr rfl)))
    | free ptr =>
      cases ptr with
      | none =>
        obtain rfl := Option.some.inj step
        exact before
      | some ptr =>
        have listed := (freeSendUnit_cases (run_counted ran fits.of_append) step).1
        rw [before.1] at listed
        exact absurd listed List.not_mem_nil
    | write addr byte =>
      obtain rfl := Option.some.inj step
      exact before

end Runs

/-- The first `free_send_unit` only takes the reference that `get_send_unit` has added: with one
call for each unit nothing is unlinked or released, unless there was nothing to release. -/
theorem send_buffers_released_iff (refBits : Nat) (mem : Nat → UInt8) (ops : List Op)
    (q : SendQueue) (fits : Fits refBits ops) (ran : run (listHeadInit refBits mem) ops = some q)
    (matched : Matched ops q) :
    (q.Emptied ∧ ∀ front back q₁, ops = front ++ back →
      run (listHeadInit refBits mem) front = some q₁ → q₁.Safe) ↔
      ∀ op ∈ ops, op.isGet = false := by
  constructor
  · rintro ⟨emptied, -⟩
    have aged := run_aged ran fits
    have zero : q.unitCount = 0 := by
      by_contra some
      have made : 0 < q.unitCount := Nat.pos_of_ne_zero some
      have absent : 0 ∉ q.sendUnitList := by
        rw [emptied.units]
        exact List.not_mem_nil
      have twice := aged.gone 0 made absent
      rw [matched 0 made] at twice
      omega
    intro op member
    rw [aged.gets, List.countP_eq_zero] at zero
    simpa using zero op member
  · intro none
    obtain ⟨units, bufs, count⟩ := run_without_gets ran fits none
    refine ⟨⟨units, bufs, fun ptr below => by omega⟩, fun front back q₁ split before => ?_⟩
    exact (run_counted before (split ▸ fits).of_append).safe

theorem matched_one {q : SendQueue} (one : q.unitCount = 1) :
    Matched [sampleGet 100, .free (some 0)] q := by
  intro u below
  obtain rfl : u = 0 := by omega
  decide

-- Nothing but a null pointer, and one unit with its one release.
theorem send_buffers_released_of_null :
    SendQueue.Emptied (listHeadInit 31 fun _ => 0) ∧
      ∃ q, run (listHeadInit 31 fun _ => 0) [sampleGet 100, .free (some 0)] = some q ∧
        ¬ (q.Emptied ∧ ∀ front back q₁, [sampleGet 100, .free (some 0)] = front ++ back →
          run (listHeadInit 31 fun _ => 0) front = some q₁ → q₁.Safe) := by
  constructor
  · exact ((send_buffers_released_iff 31 (fun _ => 0) [.free none] _ (by decide) rfl
      fun _ below => absurd below (Nat.not_lt_zero _)).mpr (by simp [Op.isGet])).1
  · refine ⟨_, rfl, fun released => ?_⟩
    have none := (send_buffers_released_iff 31 (fun _ => 0) [sampleGet 100, .free (some 0)] _
      (by decide) rfl (matched_one rfl)).mp released
    exact Bool.noConfusion (none (sampleGet 100) List.mem_cons_self)

theorem freed_unit_stays : ∃ q,
    run (listHeadInit 31 fun _ => 0) [sampleGet 100, .free (some 0)] = some q ∧
      Matched [sampleGet 100, .free (some 0)] q ∧ q.sendUnitList = [0] ∧ q.sendBufList = [0] ∧
      q.freed = [] ∧ ¬ q.Emptied := by
  refine ⟨_, rfl, matched_one rfl, rfl, rfl, rfl, ?_⟩
  intro emptied
  exact List.cons_ne_nil _ _ emptied.units

end BTServer.Socket
