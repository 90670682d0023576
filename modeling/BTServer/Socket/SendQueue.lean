import Mathlib.Logic.Function.Basic
import Mathlib.Data.List.Nodup
import Mathlib.Data.List.Count
import Mathlib.Data.List.Induction
import Mathlib.Data.List.Perm.Subperm
import Mathlib.Tactic.Common
import Mathlib.Tactic.Ring

set_option autoImplicit false

namespace BTServer.Socket

abbrev Bytes := List UInt8

structure SockaddrIn where
  family : UInt16
  port : UInt16
  addr : UInt32

structure SendBuf where
  buf : Nat
  buflen : Nat
  refCount : Nat

structure SendUnit where
  dest : SockaddrIn
  source : SockaddrIn
  buf : Nat
  cb : Nat
  arg : Nat
  timeout : Int32
  retry : Int32
  refCount : Nat

inductive Block where
  | data (addr : Nat)
  | sendBuf (ptr : Nat)
  | sendUnit (ptr : Nat)
  deriving DecidableEq

-- Records and units are named by how many were allocated before them. Their structs are declared
-- nowhere in the repository; `refBits` is how many bits of value their `ref_count` has.
structure SendQueue where
  refBits : Nat
  mem : Nat → UInt8
  sendBufs : Nat → SendBuf
  bufCount : Nat
  sendBufList : List Nat
  sendUnits : Nat → SendUnit
  unitCount : Nat
  sendUnitList : List Nat
  freed : List Block

namespace SendQueue

def bytes (q : SendQueue) (addr len : Nat) : Bytes := (List.range len).map fun i => q.mem (addr + i)

def setSendBuf (q : SendQueue) (ptr : Nat) (b : SendBuf) : SendQueue :=
  { q with sendBufs := Function.update q.sendBufs ptr b }

def setSendUnit (q : SendQueue) (ptr : Nat) (u : SendUnit) : SendQueue :=
  { q with sendUnits := Function.update q.sendUnits ptr u }

def addSendBufRefCount (q : SendQueue) (ptr : Nat) : SendQueue :=
  q.setSendBuf ptr { q.sendBufs ptr with
    refCount := ((q.sendBufs ptr).refCount + 1) % 2 ^ q.refBits }

def delSendBufRefCount (q : SendQueue) (ptr : Nat) : SendQueue :=
  q.setSendBuf ptr { q.sendBufs ptr with refCount := (q.sendBufs ptr).refCount - 1 }

def same (q : SendQueue) (buf buflen ptr : Nat) : Bool :=
  (q.sendBufs ptr).buflen = buflen && q.bytes (q.sendBufs ptr).buf buflen = q.bytes buf buflen

def getSendBuf (q : SendQueue) (buf buflen : Nat) : Nat × SendQueue :=
  match q.sendBufList.find? (q.same buf buflen) with
  | some ptr => (ptr, q.addSendBufRefCount ptr)
  | none =>
    let ptr := q.bufCount
    let q := { q with bufCount := q.bufCount + 1 }.setSendBuf ptr { buf, buflen, refCount := 0 }
    let q := q.addSendBufRefCount ptr
    (ptr, { q with sendBufList := q.sendBufList ++ [ptr] })

/-- The buffer is released and the record unlinked, but not the record itself. -/
def delSendBuf (q : SendQueue) (ptr : Nat) : SendQueue :=
  if (q.sendBufs ptr).refCount = 0 then
    { q with
      freed := q.freed ++ [.data (q.sendBufs ptr).buf]
      sendBufList := q.sendBufList.erase ptr }
  else q.delSendBufRefCount ptr

def addSendUnitRef (q : SendQueue) (ptr : Nat) : SendQueue :=
  q.setSendUnit ptr { q.sendUnits ptr with
    refCount := ((q.sendUnits ptr).refCount + 1) % 2 ^ q.refBits }

def delSendUnitRef (q : SendQueue) (ptr : Nat) : SendQueue :=
  q.setSendUnit ptr { q.sendUnits ptr with refCount := (q.sendUnits ptr).refCount - 1 }

def getSendUnit (q : SendQueue) (dest source : SockaddrIn) (buf buflen cb arg : Nat)
    (timeout retry : Int32) : Nat × SendQueue :=
  let ptr := q.unitCount
  let q := { q with unitCount := q.unitCount + 1 }
  let (b, q) := q.getSendBuf buf buflen
  let q := q.setSendUnit ptr { dest, source, buf := b, cb, arg, timeout, retry, refCount := 0 }
  let q := q.addSendUnitRef ptr
  (ptr, { q with sendUnitList := q.sendUnitList ++ [ptr] })

/-- There is no result for a unit that is not allocated any more. -/
def freeSendUnit (q : SendQueue) : Option Nat → Option SendQueue
  | none => some q
  | some ptr =>
    if q.unitCount ≤ ptr ∨ .sendUnit ptr ∈ q.freed then none
    else if (q.sendUnits ptr).refCount = 0 then
      let q := q.delSendBuf (q.sendUnits ptr).buf
      some { q with
        sendUnitList := q.sendUnitList.erase ptr
        freed := q.freed ++ [.sendUnit ptr] }
    else some (q.delSendUnitRef ptr)

end SendQueue

-- `write` is a step of a caller that changes its own memory.
inductive Op where
  | get (dest source : SockaddrIn) (buf buflen cb arg : Nat) (timeout retry : Int32)
  | free (ptr : Option Nat)
  | write (addr : Nat) (byte : UInt8)

def exec (q : SendQueue) : Op → Option SendQueue
  | .get dest source buf buflen cb arg timeout retry =>
      some (q.getSendUnit dest source buf buflen cb arg timeout retry).2
  | .free ptr => q.freeSendUnit ptr
  | .write addr byte => some { q with mem := Function.update q.mem addr byte }

def run : SendQueue → List Op → Option SendQueue
  | q, [] => some q
  | q, op :: ops => (exec q op).bind fun q => run q ops

def listHeadInit (refBits : Nat) (mem : Nat → UInt8) : SendQueue where
  refBits
  mem
  sendBufs := fun _ => ⟨0, 0, 0⟩
  bufCount := 0
  sendBufList := []
  sendUnits := fun _ => ⟨⟨0, 0, 0⟩, ⟨0, 0, 0⟩, 0, 0, 0, 0, 0, 0⟩
  unitCount := 0
  sendUnitList := []
  freed := []

def Op.isGet : Op → Bool
  | .get _ _ _ _ _ _ _ _ => true
  | _ => false

/-- A counter can hold as many references as units are made. -/
def Fits (refBits : Nat) (ops : List Op) : Prop := ops.countP Op.isGet < 2 ^ refBits

instance (refBits : Nat) (ops : List Op) : Decidable (Fits refBits ops) :=
  inferInstanceAs (Decidable (_ < _))

theorem gets_append (ops : List Op) (op : Op) :
    (ops ++ [op]).countP Op.isGet = ops.countP Op.isGet + if op.isGet then 1 else 0 := by
  simp [List.countP_append, List.countP_singleton]

theorem Fits.of_append {refBits : Nat} {front back : List Op} (fits : Fits refBits (front ++ back)) :
    Fits refBits front := by
  rw [Fits, List.countP_append] at fits
  exact Nat.lt_of_le_of_lt (Nat.le_add_right _ _) fits

theorem run_append_one (q q' : SendQueue) (ops : List Op) (op : Op)
    (ran : run q (ops ++ [op]) = some q') :
    ∃ before, run q ops = some before ∧ exec before op = some q' := by
  induction ops generalizing q with
  | nil =>
    refine ⟨q, rfl, ?_⟩
    simpa [run] using ran
  | cons first ops ih =>
    obtain ⟨q₁, step, rest⟩ := Option.bind_eq_some_iff.mp ran
    obtain ⟨before, earlier, last⟩ := ih q₁ rest
    exact ⟨before, Option.bind_eq_some_iff.mpr ⟨q₁, step, earlier⟩, last⟩

/-- The invariant rule for runs: `holds` relates the steps so far to the queue. -/
theorem run_invariant {start : SendQueue} (holds : List Op → SendQueue → Prop)
    (init : holds [] start)
    (step : ∀ ops q op q', run start ops = some q → holds ops q → exec q op = some q' →
      holds (ops ++ [op]) q')
    (ops : List Op) (q : SendQueue) (ran : run start ops = some q) : holds ops q := by
  induction ops using List.reverseRecOn generalizing q with
  | nil =>
    obtain rfl := Option.some.inj ran
    exact init
  | append_singleton ops op ih =>
    obtain ⟨before, earlier, last⟩ := run_append_one start q ops op ran
    exact step ops before op q earlier (ih before earlier) last

namespace SendQueue

structure Counted (q : SendQueue) : Prop where
  bufs : q.sendBufList.Nodup
  bufsMade : ∀ ptr ∈ q.sendBufList, ptr < q.bufCount
  units : q.sendUnitList.Nodup
  live : ∀ u, u ∈ q.sendUnitList ↔ u < q.unitCount ∧ .sendUnit u ∉ q.freed
  points : ∀ u ∈ q.sendUnitList, (q.sendUnits u).buf ∈ q.sendBufList
  refs : ∀ ptr ∈ q.sendBufList, (q.sendBufs ptr).refCount =
    q.sendUnitList.countP fun u => (q.sendUnits u).buf = ptr
  onlyUnits : ∀ block ∈ q.freed, ∃ u, u < q.unitCount ∧ block = .sendUnit u

theorem listHeadInit_counted (refBits : Nat) (mem : Nat → UInt8) :
    (listHeadInit refBits mem).Counted := by
  constructor <;> simp [listHeadInit]

theorem Counted.needed {q : SendQueue} (counted : q.Counted) (u : Nat)
    (member : u ∈ q.sendUnitList) : (q.sendBufs (q.sendUnits u).buf).refCount ≠ 0 := by
  rw [counted.refs _ (counted.points u member), ← Nat.pos_iff_ne_zero, List.countP_pos_iff]
  exact ⟨u, member, by simp⟩

theorem Counted.refs_le {q : SendQueue} (counted : q.Counted) (ptr : Nat)
    (member : ptr ∈ q.sendBufList) : (q.sendBufs ptr).refCount ≤ q.unitCount := by
  have made : q.sendUnitList ⊆ List.range q.unitCount := fun u listed =>
    List.mem_range.mpr ((counted.live u).mp listed).1
  have few := (List.subperm_of_subset counted.units made).length_le
  rw [List.length_range] at few
  rw [counted.refs ptr member]
  exact Nat.le_trans List.countP_le_length few

structure BufTaken (q q' : SendQueue) (buf buflen ptr : Nat) : Prop where
  listed : ptr ∈ q'.sendBufList
  nodup : q'.sendBufList.Nodup
  made : ∀ p ∈ q'.sendBufList, p < q'.bufCount
  record : (q'.sendBufs ptr).buflen = buflen ∧
    q'.bytes (q'.sendBufs ptr).buf buflen = q'.bytes buf buflen
  source : ∀ p ∈ q'.sendBufList, p ∈ q.sendBufList ∨
    (p = ptr ∧ p ∉ q.sendBufList ∧ (q'.sendBufs p).refCount = 1 ∧
      ∀ other ∈ q.sendBufList, q.same buf buflen other = false)
  old : ∀ p ∈ q.sendBufList, p ∈ q'.sendBufList ∧
    (q'.sendBufs p).buf = (q.sendBufs p).buf ∧ (q'.sendBufs p).buflen = (q.sendBufs p).buflen ∧
    (q'.sendBufs p).refCount = (q.sendBufs p).refCount + if p = ptr then 1 else 0
  rest : q'.mem = q.mem ∧ q'.sendUnits = q.sendUnits ∧ q'.unitCount = q.unitCount ∧
    q'.sendUnitList = q.sendUnitList ∧ q'.freed = q.freed

theorem getSendBuf_taken (q : SendQueue) (nodup : q.sendBufList.Nodup)
    (made : ∀ ptr ∈ q.sendBufList, ptr < q.bufCount)
    (room : ∀ ptr ∈ q.sendBufList, (q.sendBufs ptr).refCount + 1 < 2 ^ q.refBits)
    (one : 1 < 2 ^ q.refBits) (buf buflen : Nat) :
    BufTaken q (q.getSendBuf buf buflen).2 buf buflen (q.getSendBuf buf buflen).1 := by
  cases found : q.sendBufList.find? (q.same buf buflen) with
  | some ptr =>
    have listed := List.mem_of_find?_eq_some found
    have equal := List.find?_some found
    simp only [same, Bool.and_eq_true, decide_eq_true_eq] at equal
    rw [getSendBuf, found]
    refine ⟨listed, nodup, made, ?_, fun p member => .inl member, ?_, ?_⟩
    · simpa [addSendBufRefCount, setSendBuf, bytes] using equal
    · intro p member
      by_cases here : p = ptr
      · subst here
        simp [addSendBufRefCount, setSendBuf, member, Nat.mod_eq_of_lt (room p member)]
      · simp [addSendBufRefCount, setSendBuf, member, here]
    · simp [addSendBufRefCount, setSendBuf]
  | none =>
    have absent (p : Nat) (member : p ∈ q.sendBufList) : p ≠ q.bufCount :=
      Nat.ne_of_lt (made p member)
    have fresh : q.bufCount ∉ q.sendBufList := fun member => absent _ member rfl
    rw [getSendBuf, found]
    refine ⟨?_, ?_, ?_, ?_, ?_, ?_, ?_⟩
    · simp
    · simpa [addSendBufRefCount, setSendBuf, List.nodup_append'] using ⟨nodup, fresh⟩
    · intro p member
      simp only [addSendBufRefCount, setSendBuf, List.mem_append, List.mem_singleton] at member ⊢
      rcases member with member | rfl
      · exact Nat.lt_succ_of_lt (made p member)
      · exact Nat.lt_succ_self _
    · simp [addSendBufRefCount, setSendBuf, bytes]
    · intro p member
      simp only [addSendBufRefCount, setSendBuf, List.mem_append, List.mem_singleton] at member ⊢
      rcases member with member | rfl
      · exact .inl member
      · refine .inr ⟨rfl, fresh, by simp [Nat.mod_eq_of_lt one], ?_⟩
        simpa using List.find?_eq_none.mp found
    · intro p member
      have other := absent p member
      simp [addSendBufRefCount, setSendBuf, member, other]
    · simp [addSendBufRefCount, setSendBuf]

theorem getSendBuf_refBits (q : SendQueue) (buf buflen : Nat) :
    (q.getSendBuf buf buflen).2.refBits = q.refBits := by
  rw [getSendBuf]
  cases q.sendBufList.find? (q.same buf buflen) <;> rfl

theorem Counted.fresh {q : SendQueue} (counted : q.Counted) : q.unitCount ∉ q.sendUnitList :=
  fun member => Nat.lt_irrefl _ ((counted.live _).mp member).1

theorem Counted.not_freed {q : SendQueue} (counted : q.Counted) (u : Nat) (new : q.unitCount ≤ u) :
    .sendUnit u ∉ q.freed := by
  intro member
  obtain ⟨v, below, same⟩ := counted.onlyUnits _ member
  obtain rfl := Block.sendUnit.inj same
  omega

structure UnitTaken (q q' : SendQueue) (buf buflen : Nat) : Prop where
  buf : ∃ ptr qb, BufTaken { q with unitCount := q.unitCount + 1 } qb buf buflen ptr ∧
    q'.sendBufs = qb.sendBufs ∧ q'.bufCount = qb.bufCount ∧ q'.sendBufList = qb.sendBufList ∧
    (q'.sendUnits q.unitCount).buf = ptr
  refs : (q'.sendUnits q.unitCount).refCount = 1
  others : ∀ u, u ≠ q.unitCount → q'.sendUnits u = q.sendUnits u
  count : q'.unitCount = q.unitCount + 1
  list : q'.sendUnitList = q.sendUnitList ++ [q.unitCount]
  mem : q'.mem = q.mem
  freed : q'.freed = q.freed

theorem getSendUnit_taken (q : SendQueue) (counted : q.Counted)
    (room : q.unitCount + 1 < 2 ^ q.refBits) (dest source : SockaddrIn)
    (buf buflen cb arg : Nat) (timeout retry : Int32) :
    UnitTaken q (q.getSendUnit dest source buf buflen cb arg timeout retry).2 buf buflen := by
  have one : 1 < 2 ^ q.refBits := by omega
  have taken := getSendBuf_taken { q with unitCount := q.unitCount + 1 } counted.bufs
    counted.bufsMade
    (fun ptr member => Nat.lt_of_le_of_lt (Nat.succ_le_succ (counted.refs_le ptr member)) room) one
    buf buflen
  obtain ⟨mem, units, count, list, freed⟩ := taken.rest
  refine ⟨⟨_, _, taken, rfl, rfl, rfl, ?_⟩, ?_, ?_, count, ?_, mem, freed⟩
  · simp [getSendUnit, addSendUnitRef, setSendUnit]
  · have bits : (SendQueue.getSendBuf { q with unitCount := q.unitCount + 1 } buf buflen).2.refBits =
        q.refBits := getSendBuf_refBits _ _ _
    simp [getSendUnit, addSendUnitRef, setSendUnit, bits, Nat.mod_eq_of_lt one]
  · intro u other
    simp [getSendUnit, addSendUnitRef, setSendUnit, other, units]
  · simp [getSendUnit, addSendUnitRef, setSendUnit, list]

theorem UnitTaken.counted {q q' : SendQueue} {buf buflen : Nat}
    (taken : UnitTaken q q' buf buflen) (counted : q.Counted) : q'.Counted := by
  obtain ⟨ptr, qb, record, bufs, bufCount, bufList, target⟩ := taken.buf
  have fresh := counted.fresh
  have same (u : Nat) (member : u ∈ q.sendUnitList) : q'.sendUnits u = q.sendUnits u :=
    taken.others u fun equal => fresh (equal ▸ member)
  -- Only the new unit is counted anew.
  have count (p : Nat) : q'.sendUnitList.countP (fun u => (q'.sendUnits u).buf = p) =
      (q.sendUnitList.countP fun u => (q.sendUnits u).buf = p) + if p = ptr then 1 else 0 := by
    rw [taken.list, List.countP_append, List.countP_singleton, target]
    congr 1
    · apply List.countP_congr
      intro u member
      rw [same u member]
    · simp [eq_comm]
  constructor
  · rw [bufList]
    exact record.nodup
  · rw [bufList, bufCount]
    exact record.made
  · rw [taken.list, List.nodup_append']
    exact ⟨counted.units, List.nodup_singleton _, by simpa using fresh⟩
  · intro u
    rw [taken.list, taken.count, taken.freed, List.mem_append, List.mem_singleton, counted.live]
    constructor
    · rintro (⟨below, kept⟩ | rfl)
      · exact ⟨by omega, kept⟩
      · exact ⟨by omega, counted.not_freed _ (Nat.le_refl _)⟩
    · rintro ⟨below, kept⟩
      rcases Nat.lt_succ_iff_lt_or_eq.mp below with below | rfl
      · exact .inl ⟨below, kept⟩
      · exact .inr rfl
  · intro u member
    rw [taken.list, List.mem_append, List.mem_singleton] at member
    rw [bufList]
    rcases member with member | rfl
    · rw [same u member]
      exact (record.old _ (counted.points u member)).1
    · rw [target]
      exact record.listed
  · intro p member
    rw [bufList] at member
    rw [count, bufs]
    by_cases old : p ∈ q.sendBufList
    · rw [(record.old p old).2.2.2, counted.refs p old]
    · obtain ⟨rfl, -, one, -⟩ := (record.source p member).resolve_left old
      have none : q.sendUnitList.countP (fun u => (q.sendUnits u).buf = p) = 0 := by
        rw [List.countP_eq_zero]
        intro u inside equal
        exact old (of_decide_eq_true equal ▸ counted.points u inside)
      rw [none, one, if_pos rfl]
  · intro block member
    rw [taken.freed] at member
    obtain ⟨u, below, same⟩ := counted.onlyUnits block member
    exact ⟨u, by rw [taken.count]; omega, same⟩

/-- What `free_send_unit` does to a unit: the first call takes its reference, the second unlinks
it. The record it points to still counts it then, so the record stays. -/
theorem freeSendUnit_cases {q q' : SendQueue} (counted : q.Counted) {ptr : Nat}
    (result : q.freeSendUnit (some ptr) = some q') :
    ptr ∈ q.sendUnitList ∧
      (((q.sendUnits ptr).refCount ≠ 0 ∧ q' = q.delSendUnitRef ptr) ∨
        ((q.sendUnits ptr).refCount = 0 ∧ q' = { q.delSendBufRefCount (q.sendUnits ptr).buf with
          sendUnitList := q.sendUnitList.erase ptr
          freed := q.freed ++ [.sendUnit ptr] })) := by
  rw [freeSendUnit] at result
  split at result
  next => contradiction
  next allocated =>
    have listed : ptr ∈ q.sendUnitList := by
      rw [counted.live]
      rw [not_or] at allocated
      exact ⟨Nat.lt_of_not_le allocated.1, allocated.2⟩
    refine ⟨listed, ?_⟩
    split at result
    next zero =>
      obtain rfl := Option.some.inj result
      refine .inr ⟨zero, ?_⟩
      rw [delSendBuf, if_neg (counted.needed ptr listed)]
      rfl
    next some =>
      obtain rfl := Option.some.inj result
      exact .inl ⟨some, rfl⟩

theorem delSendUnitRef_counted {q : SendQueue} (counted : q.Counted) (ptr : Nat) :
    (q.delSendUnitRef ptr).Counted := by
  have buf (u : Nat) : ((q.delSendUnitRef ptr).sendUnits u).buf = (q.sendUnits u).buf := by
    by_cases here : u = ptr
    · subst here
      simp [delSendUnitRef, setSendUnit]
    · simp [delSendUnitRef, setSendUnit, here]
  refine ⟨counted.bufs, counted.bufsMade, counted.units, counted.live, ?_, ?_, counted.onlyUnits⟩
  · intro u member
    rw [buf]
    exact counted.points u member
  · intro p member
    simp only [buf]
    exact counted.refs p member

theorem unlinked_counted {q : SendQueue} (counted : q.Counted) {ptr : Nat}
    (listed : ptr ∈ q.sendUnitList) :
    Counted { q.delSendBufRefCount (q.sendUnits ptr).buf with
      sendUnitList := q.sendUnitList.erase ptr
      freed := q.freed ++ [.sendUnit ptr] } := by
  refine ⟨counted.bufs, counted.bufsMade, counted.units.erase ptr, ?_, ?_, ?_, ?_⟩
  · intro u
    rw [counted.units.mem_erase_iff, counted.live]
    simp only [delSendBufRefCount, setSendBuf, List.mem_append, List.mem_singleton,
      Block.sendUnit.injEq, not_or]
    tauto
  · intro u member
    exact counted.points u (List.mem_of_mem_erase member)
  · intro p member
    change ((q.delSendBufRefCount (q.sendUnits ptr).buf).sendBufs p).refCount =
      (q.sendUnitList.erase ptr).countP fun u => (q.sendUnits u).buf = p
    rw [List.countP_erase, ← counted.refs p member]
    by_cases here : p = (q.sendUnits ptr).buf
    · subst here
      simp [delSendBufRefCount, setSendBuf, listed]
    · simp [delSendBufRefCount, setSendBuf, here, Ne.symm here]
  · intro block member
    rcases List.mem_append.mp member with member | member
    · exact counted.onlyUnits block member
    · exact ⟨ptr, ((counted.live ptr).mp listed).1, List.mem_singleton.mp member⟩

end SendQueue

open SendQueue

theorem exec_counted {q q' : SendQueue} (counted : q.Counted) (op : Op)
    (room : op.isGet = true → q.unitCount + 1 < 2 ^ q.refBits) (step : exec q op = some q') :
    q'.Counted := by
  cases op with
  | get dest source buf buflen cb arg timeout retry =>
    obtain rfl := Option.some.inj step
    exact (getSendUnit_taken q counted (room rfl) _ _ _ _ _ _ _ _).counted counted
  | free ptr =>
    cases ptr with
    | none =>
      obtain rfl := Option.some.inj step
      exact counted
    | some ptr =>
      obtain ⟨listed, ⟨-, rfl⟩ | ⟨-, rfl⟩⟩ := freeSendUnit_cases counted step
      · exact delSendUnitRef_counted counted ptr
      · exact unlinked_counted counted listed
  | write addr byte =>
    obtain rfl := Option.some.inj step
    exact ⟨counted.bufs, counted.bufsMade, counted.units, counted.live, counted.points,
      counted.refs, counted.onlyUnits⟩

theorem exec_unitCount {q q' : SendQueue} (op : Op) (step : exec q op = some q') :
    q'.refBits = q.refBits ∧ q'.unitCount = q.unitCount + if op.isGet then 1 else 0 := by
  cases op with
  | get dest source buf buflen cb arg timeout retry =>
    obtain rfl := Option.some.inj step
    simp only [getSendUnit, getSendBuf, addSendUnitRef, setSendUnit, addSendBufRefCount, setSendBuf]
    split <;> exact ⟨rfl, rfl⟩
  | free ptr =>
    cases ptr with
    | none =>
      obtain rfl := Option.some.inj step
      exact ⟨rfl, rfl⟩
    | some ptr =>
      simp only [exec, freeSendUnit, delSendBuf] at step
      split at step
      next => contradiction
      next =>
        split at step
        next =>
          obtain rfl := Option.some.inj step
          split <;> exact ⟨rfl, rfl⟩
        next =>
          obtain rfl := Option.some.inj step
          exact ⟨rfl, rfl⟩
  | write addr byte =>
    obtain rfl := Option.some.inj step
    exact ⟨rfl, rfl⟩

section Runs

variable {refBits : Nat} {mem : Nat → UInt8} {ops : List Op} {q : SendQueue}
  (ran : run (listHeadInit refBits mem) ops = some q)

include ran

theorem run_unitCount : q.refBits = refBits ∧ q.unitCount = ops.countP Op.isGet := by
  apply run_invariant (fun ops q => q.refBits = refBits ∧ q.unitCount = ops.countP Op.isGet) _ _
    ops q ran
  · exact ⟨rfl, rfl⟩
  · rintro ops q op q' - ⟨bits, count⟩ step
    obtain ⟨bits', count'⟩ := exec_unitCount op step
    rw [gets_append, bits', count', bits, count]
    exact ⟨rfl, rfl⟩

theorem Fits.room {op : Op} (fits : Fits refBits (ops ++ [op])) (gets : op.isGet = true) :
    q.unitCount + 1 < 2 ^ q.refBits := by
  obtain ⟨bits, count⟩ := run_unitCount ran
  rw [Fits, gets_append, if_pos gets] at fits
  rwa [bits, count]

theorem run_counted (fits : Fits refBits ops) : q.Counted := by
  apply run_invariant (fun ops q => Fits refBits ops → q.Counted) _ _ ops q ran fits
  · intro _
    exact listHeadInit_counted refBits mem
  · intro ops q op q' ran counted step fits
    exact exec_counted (counted fits.of_append) op (fits.room ran) step

end Runs

end BTServer.Socket
