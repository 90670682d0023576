import BTServer.Socket.SendQueue

set_option autoImplicit false

namespace BTServer.Socket

open SendQueue

def SendQueue.contents (q : SendQueue) (ptr : Nat) : Bytes :=
  q.bytes (q.sendBufs ptr).buf (q.sendBufs ptr).buflen

def Op.data (q : SendQueue) : Op → List Bytes
  | .get _ _ buf buflen _ _ _ _ => [q.bytes buf buflen]
  | .free _ => []
  | .write _ _ => []

/-- What the calls of `get_send_unit` were given, so that the entry at `u` belongs to unit `u`. -/
def handedOver : SendQueue → List Op → List Bytes
  | _, [] => []
  | q, op :: ops => op.data q ++ (exec q op).elim [] fun q => handedOver q ops

-- The caller leaves the buffers alone that are registered.
def Op.Spares (q : SendQueue) : Op → Prop
  | .write addr _ => ∀ ptr ∈ q.sendBufList,
      addr < (q.sendBufs ptr).buf ∨ (q.sendBufs ptr).buf + (q.sendBufs ptr).buflen ≤ addr
  | _ => True

def Spared (start : SendQueue) (ops : List Op) : Prop :=
  ∀ front op back q, ops = front ++ op :: back → run start front = some q → op.Spares q

structure SendQueue.Shared (q : SendQueue) (data : List Bytes) : Prop where
  once : q.sendBufList.Nodup
  distinct : ∀ ptr ∈ q.sendBufList, ∀ ptr' ∈ q.sendBufList, q.contents ptr = q.contents ptr' →
    ptr = ptr'
  points : ∀ u ∈ q.sendUnitList, (q.sendUnits u).buf ∈ q.sendBufList ∧
    data[u]? = some (q.contents (q.sendUnits u).buf)
  refs : ∀ ptr ∈ q.sendBufList, (q.sendBufs ptr).refCount =
    q.sendUnitList.countP fun u => (q.sendUnits u).buf = ptr
  needed : ∀ u ∈ q.sendUnitList, (q.sendBufs (q.sendUnits u).buf).refCount ≠ 0
  unreleased : ∀ addr, .data addr ∉ q.freed

theorem Spared.of_append {start : SendQueue} {front back : List Op}
    (spared : Spared start (front ++ back)) : Spared start front := by
  intro first op rest q split ran
  exact spared first op (rest ++ back) q (by simp [split]) ran

theorem handedOver_append (start q : SendQueue) (ops : List Op) (op : Op)
    (ran : run start ops = some q) :
    handedOver start (ops ++ [op]) = handedOver start ops ++ op.data q := by
  induction ops generalizing start with
  | nil =>
    obtain rfl := Option.some.inj ran
    rw [List.nil_append, handedOver, handedOver]
    cases exec start op <;> simp [handedOver]
  | cons first ops ih =>
    obtain ⟨q₁, step, rest⟩ := Option.bind_eq_some_iff.mp ran
    rw [List.cons_append, handedOver, handedOver, step, Option.elim_some, Option.elim_some,
      ih q₁ rest, List.append_assoc]

theorem bytes_length (q : SendQueue) (addr len : Nat) : (q.bytes addr len).length = len := by
  simp [SendQueue.bytes]

theorem bytes_congr {q q' : SendQueue} (mem : q'.mem = q.mem) (addr len : Nat) :
    q'.bytes addr len = q.bytes addr len := by
  rw [SendQueue.bytes, SendQueue.bytes, mem]

structure Holding (q : SendQueue) (data : List Bytes) : Prop where
  count : data.length = q.unitCount
  distinct : ∀ ptr ∈ q.sendBufList, ∀ ptr' ∈ q.sendBufList, q.contents ptr = q.contents ptr' →
    ptr = ptr'
  stored : ∀ u ∈ q.sendUnitList, data[u]? = some (q.contents (q.sendUnits u).buf)

theorem Holding.get {q q' : SendQueue} {data : List Bytes} {buf buflen : Nat}
    (holding : Holding q data) (counted : q.Counted) (taken : UnitTaken q q' buf buflen) :
    Holding q' (data ++ [q.bytes buf buflen]) := by
  obtain ⟨ptr, qb, record, bufs, -, list, target⟩ := taken.buf
  have memory : qb.mem = q.mem := record.rest.1
  have old (p : Nat) (member : p ∈ q.sendBufList) : q'.contents p = q.contents p := by
    obtain ⟨-, start, length, -⟩ := record.old p member
    rw [contents, contents, bytes_congr taken.mem, bufs, start, length]
  have new : q'.contents ptr = q.bytes buf buflen := by
    obtain ⟨length, equal⟩ := record.record
    rw [contents, bytes_congr taken.mem, bufs, length, ← bytes_congr memory, equal,
      bytes_congr memory]
  -- A record that is added differs from every other, or it would have been found.
  have apart (p : Nat) (member : p ∈ q.sendBufList)
      (none : ∀ other ∈ q.sendBufList, q.same buf buflen other = false) :
      q'.contents p ≠ q'.contents ptr := by
    rw [old p member, new]
    intro equal
    have length := congrArg List.length equal
    rw [contents, bytes_length, bytes_length] at length
    have differs := none p member
    rw [contents, length] at equal
    simp [SendQueue.same, length, equal] at differs
  constructor
  · rw [List.length_append, holding.count, taken.count]
    rfl
  · intro p member p' member' equal
    rw [list] at member member'
    rcases record.source p member with first | ⟨rfl, -, -, none⟩ <;>
      rcases record.source p' member' with second | ⟨rfl, -, -, none'⟩
    · rw [old p first, old p' second] at equal
      exact holding.distinct p first p' second equal
    · exact absurd equal (apart p first none')
    · exact absurd equal.symm (apart p' second none)
    · rfl
  · intro u member
    rw [taken.list, List.mem_append, List.mem_singleton] at member
    rcases member with member | rfl
    · have below := ((counted.live u).mp member).1
      rw [List.getElem?_append_left (by rw [holding.count]; exact below), holding.stored u member,
        taken.others u (Nat.ne_of_lt below), old _ (counted.points u member)]
    · rw [List.getElem?_append_right (Nat.le_of_eq holding.count), holding.count, Nat.sub_self, target,
        new]
      rfl

theorem Holding.keep {q q' : SendQueue} {data : List Bytes} (holding : Holding q data)
    (count : q'.unitCount = q.unitCount) (list : q'.sendBufList = q.sendBufList)
    (units : q'.sendUnitList ⊆ q.sendUnitList)
    (buf : ∀ u, (q'.sendUnits u).buf = (q.sendUnits u).buf)
    (same : ∀ ptr ∈ q.sendBufList, q'.contents ptr = q.contents ptr) (counted : q.Counted) :
    Holding q' data := by
  constructor
  · rw [count, holding.count]
  · intro p member p' member' equal
    rw [list] at member member'
    rw [same p member, same p' member'] at equal
    exact holding.distinct p member p' member' equal
  · intro u member
    rw [buf, same _ (counted.points u (units member))]
    exact holding.stored u (units member)

theorem write_contents {q : SendQueue} {addr : Nat} {byte : UInt8} {ptr : Nat}
    (spared : addr < (q.sendBufs ptr).buf ∨ (q.sendBufs ptr).buf + (q.sendBufs ptr).buflen ≤ addr) :
    SendQueue.contents { q with mem := Function.update q.mem addr byte } ptr = q.contents ptr := by
  simp only [contents, SendQueue.bytes]
  apply List.map_congr_left
  intro i member
  have below := List.mem_range.mp member
  apply Function.update_of_ne
  omega

theorem exec_holding {q q' : SendQueue} {data : List Bytes} (holding : Holding q data)
    (counted : q.Counted) (op : Op) (room : op.isGet = true → q.unitCount + 1 < 2 ^ q.refBits)
    (spares : op.Spares q) (step : exec q op = some q') :
    Holding q' (data ++ op.data q) := by
  cases op with
  | get dest source buf buflen cb arg timeout retry =>
    obtain rfl := Option.some.inj step
    exact holding.get counted (getSendUnit_taken q counted (room rfl) _ _ _ _ _ _ _ _)
  | free ptr =>
    rw [Op.data, List.append_nil]
    cases ptr with
    | none =>
      obtain rfl := Option.some.inj step
      exact holding
    | some ptr =>
      obtain ⟨listed, ⟨-, rfl⟩ | ⟨-, rfl⟩⟩ := freeSendUnit_cases counted step
      · refine holding.keep rfl rfl (List.Subset.refl _) ?_ (fun _ _ => rfl) counted
        intro u
        by_cases here : u = ptr
        · subst here
          simp [delSendUnitRef, setSendUnit]
        · simp [delSendUnitRef, setSendUnit, here]
      · refine holding.keep rfl rfl List.erase_subset (fun _ => rfl) ?_ counted
        intro p _
        by_cases here : p = (q.sendUnits ptr).buf
        · subst here
          simp [contents, SendQueue.bytes, delSendBufRefCount, setSendBuf]
        · simp [contents, SendQueue.bytes, delSendBufRefCount, setSendBuf, here]
  | write addr byte =>
    obtain rfl := Option.some.inj step
    rw [Op.data, List.append_nil]
    exact holding.keep rfl rfl (List.Subset.refl _) (fun _ => rfl)
      (fun p member => write_contents (spares p member)) counted

theorem run_holding (refBits : Nat) (mem : Nat → UInt8) (ops : List Op) (q : SendQueue)
    (fits : Fits refBits ops) (ran : run (listHeadInit refBits mem) ops = some q)
    (spared : Spared (listHeadInit refBits mem) ops) :
    Holding q (handedOver (listHeadInit refBits mem) ops) := by
  apply run_invariant (fun ops q => Fits refBits ops → Spared (listHeadInit refBits mem) ops →
    Holding q (handedOver (listHeadInit refBits mem) ops)) _ _ ops q ran fits spared
  · intro _ _
    constructor <;> simp [listHeadInit, handedOver]
  · intro ops q op q' ran held step fits spared
    rw [handedOver_append _ q ops op ran]
    exact exec_holding (held fits.of_append spared.of_append) (run_counted ran fits.of_append) op
      (fits.room ran) (spared ops op [] q rfl ran) step

theorem send_queue_shared (refBits : Nat) (mem : Nat → UInt8) (ops : List Op) (q : SendQueue)
    (fits : Fits refBits ops) (ran : run (listHeadInit refBits mem) ops = some q)
    (spared : Spared (listHeadInit refBits mem) ops) :
    q.Shared (handedOver (listHeadInit refBits mem) ops) := by
  have counted := run_counted ran fits
  have holding := run_holding refBits mem ops q fits ran spared
  refine ⟨counted.bufs, holding.distinct, ?_, counted.refs, counted.needed, ?_⟩
  · intro u member
    exact ⟨counted.points u member, holding.stored u member⟩
  · intro addr member
    obtain ⟨u, -, same⟩ := counted.onlyUnits _ member
    exact Block.noConfusion same

def sampleGet (buf : Nat) : Op := .get ⟨2, 6881, 0⟩ ⟨2, 6882, 0⟩ buf 2 0 0 5 3

theorem send_queue_shared_by_two : ∃ q,
    run (listHeadInit 31 fun _ => 7) [sampleGet 100, sampleGet 200, .free (some 0)] = some q ∧
      q.Shared [[7, 7], [7, 7]] := by
  refine ⟨_, rfl, send_queue_shared 31 (fun _ => 7) [sampleGet 100, sampleGet 200, .free (some 0)] _
    (by decide) rfl ?_⟩
  intro front op back q split _
  have member : op ∈ [sampleGet 100, sampleGet 200, .free (some 0)] := by
    rw [split]
    simp
  simp only [List.mem_cons, List.not_mem_nil, or_false] at member
  rcases member with rfl | rfl | rfl <;> trivial

end BTServer.Socket
