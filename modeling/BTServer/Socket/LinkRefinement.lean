import BTServer.Shared.Rings
import BTServer.Shared.Simulation
import BTServer.Socket.Linked
import Mathlib.Data.List.Perm.Subperm

set_option autoImplicit false

namespace BTServer.Socket.Linked

open LinkedList Outcome

def bufNodes (l : Lists) : List Node := l.sendBufList.map .sendBuf

def unitNodes (l : Lists) : List Node := l.sendUnitList.map .sendUnit

@[simp] theorem mem_bufNodes (l : Lists) (ptr : Nat) :
    .sendBuf ptr ∈ bufNodes l ↔ ptr ∈ l.sendBufList := by
  simp [bufNodes]

@[simp] theorem mem_unitNodes (l : Lists) (ptr : Nat) :
    .sendUnit ptr ∈ unitNodes l ↔ ptr ∈ l.sendUnitList := by
  simp [unitNodes]

/-- The links are those of the two lists. A record that was unlinked has poison in its links. -/
structure Links.Hold (c : Cells) (links : Links Node) (l : Lists) : Prop where
  bufs : Ring links .sendBufList (bufNodes l)
  units : Ring links .sendUnitList (unitNodes l)
  made : ∀ ptr ∈ l.sendBufList, ptr < c.bufCount
  live : ∀ ptr ∈ l.sendUnitList, c.UnitLive ptr
  loose : ∀ ptr < c.bufCount, ptr ∉ l.sendBufList → (links (.sendBuf ptr)).next = .poison₁
  released : ∀ ptr, .sendUnit ptr ∈ c.freed → ptr < c.unitCount

inductive Represents : Heap → State Lists → Prop
  | intro {c : Cells} {links : Links Node} {l : Lists} (hold : Links.Hold c links l) :
      Represents ⟨c, links⟩ ⟨c, l⟩

section Access

variable {c : Cells} {links : Links Node} {l : Lists} {node : Node}

theorem access_buf (made : ∀ ptr ∈ l.sendBufList, ptr < c.bufCount)
    (member : node ∈ .sendBufList :: bufNodes l) :
    Heap.access ⟨c, links⟩ node = .done () ⟨c, links⟩ := by
  rcases List.mem_cons.mp member with rfl | inside
  next => rfl
  next =>
    obtain ⟨ptr, listed, rfl⟩ := List.mem_map.mp inside
    exact if_pos (made ptr listed)

theorem access_unit (live : ∀ ptr ∈ l.sendUnitList, c.UnitLive ptr)
    (member : node ∈ .sendUnitList :: unitNodes l) :
    Heap.access ⟨c, links⟩ node = .done () ⟨c, links⟩ := by
  rcases List.mem_cons.mp member with rfl | inside
  next => rfl
  next =>
    obtain ⟨ptr, listed, rfl⟩ := List.mem_map.mp inside
    exact if_pos (live ptr listed)

theorem unit_not_buf (member : node ∈ .sendUnitList :: unitNodes l) :
    node ∉ .sendBufList :: bufNodes l ∧ ∀ ptr, node ≠ .sendBuf ptr := by
  rcases List.mem_cons.mp member with rfl | inside
  next => simp [bufNodes]
  next =>
    obtain ⟨ptr, -, rfl⟩ := List.mem_map.mp inside
    simp [bufNodes]

theorem buf_not_unit (member : node ∈ .sendBufList :: bufNodes l) :
    node ∉ .sendUnitList :: unitNodes l ∧ ∀ ptr, node ≠ .sendUnit ptr := by
  rcases List.mem_cons.mp member with rfl | inside
  next => simp [unitNodes]
  next =>
    obtain ⟨ptr, -, rfl⟩ := List.mem_map.mp inside
    simp [unitNodes]

end Access

section Hold

variable {c : Cells} {links : Links Node} {l : Lists} (hold : Links.Hold c links l)

include hold

theorem length_le : l.sendBufList.length ≤ c.bufCount := by
  have distinct : l.sendBufList.Nodup := (List.nodup_cons.mp hold.bufs.nodup).2.of_map _
  have inside : l.sendBufList ⊆ List.range c.bufCount :=
    fun ptr member => List.mem_range.mpr (hold.made ptr member)
  simpa using (distinct.subperm inside).length_le

theorem searchFrom_finds (test : Nat → Bool) (front back : List Nat)
    (split : l.sendBufList = front ++ back) (fuel : Nat) (enough : back.length < fuel) :
    Heap.searchFrom test fuel ((back.map Node.sendBuf).headD .sendBufList) ⟨c, links⟩ =
      .done (back.find? test) ⟨c, links⟩ := by
  induction back generalizing front fuel with
  | nil =>
    obtain ⟨fuel, rfl⟩ : ∃ n, fuel = n + 1 := ⟨fuel - 1, by omega⟩
    rfl
  | cons ptr back ih =>
    obtain ⟨fuel, rfl⟩ : ∃ n, fuel = n + 1 := ⟨fuel - 1, by omega⟩
    have ring := hold.bufs
    have nodes : bufNodes l = front.map Node.sendBuf ++ .sendBuf ptr :: back.map Node.sendBuf := by
      rw [bufNodes, split, List.map_append, List.map_cons]
    have next : (links (.sendBuf ptr)).next = (back.map Node.sendBuf).headD .sendBufList := by
      rw [nodes] at ring
      exact ring.next_of_split _
    have here : Heap.access ⟨c, links⟩ (.sendBuf ptr) = .done () ⟨c, links⟩ :=
      access_buf hold.made (by simp [nodes])
    rw [List.map_cons, List.headD_cons, Heap.searchFrom, if_neg (by simp), here, done_andThen,
      List.find?_cons]
    dsimp only
    cases test ptr with
    | true => rfl
    | false =>
      rw [if_neg Bool.false_ne_true, next]
      exact ih (front ++ [ptr]) (by simpa using split) fuel (by simpa using enough)

theorem search_finds (test : Nat → Bool) :
    linkOps.search test ⟨c, links⟩ = .done (l.sendBufList.find? test) ⟨c, links⟩ := by
  have start : (links .sendBufList).next = (bufNodes l).headD .sendBufList := hold.bufs.next_head
  change Heap.searchFrom test (c.bufCount + 1) (links .sendBufList).next ⟨c, links⟩ = _
  rw [start]
  exact searchFrom_finds hold test [] _ rfl _ (Nat.lt_succ_of_le (length_le hold))

theorem addBuf_hold {c' : Cells} (count : c'.bufCount = c.bufCount + 1)
    (units : c'.unitCount = c.unitCount) (freed : c'.freed = c.freed) :
    Matches Represents (linkOps.addBuf c.bufCount ⟨c', links⟩)
      (listOps.addBuf c.bufCount ⟨c', l⟩) := by
  have fresh : Node.sendBuf c.bufCount ∉ .sendBufList :: bufNodes l := by
    intro inside
    have listed : c.bufCount ∈ l.sendBufList := by simpa using inside
    exact Nat.lt_irrefl _ (hold.made _ listed)
  have made (ptr : Nat) (listed : ptr ∈ l.sendBufList) : ptr < c'.bufCount := by
    have old := hold.made ptr listed
    omega
  have last : Heap.access ⟨c', links⟩ (links .sendBufList).prev = .done () ⟨c', links⟩ :=
    access_buf made hold.bufs.last_mem
  simp only [linkOps, Heap.listAddTail, last, done_andThen, Heap.setLinks, listOps]
  refine .done (.intro ⟨?_, ?_, ?_, ?_, ?_, by rw [freed, units]; exact hold.released⟩)
  next => simpa [bufNodes] using hold.bufs.append fresh
  next =>
    refine hold.units.congr fun node member => ?_
    obtain ⟨outside, other⟩ := unit_not_buf member
    exact listAddTail_other hold.bufs outside (other _)
  next =>
    intro ptr listed
    rcases List.mem_append.mp listed with old | new
    next => exact made ptr old
    next =>
      rw [List.mem_singleton.mp new]
      omega
  next =>
    intro ptr listed
    have old := hold.live ptr listed
    unfold Cells.UnitLive at old ⊢
    rwa [units, freed]
  next =>
    intro ptr small absent
    rw [List.mem_append, List.mem_singleton, not_or] at absent
    rw [listAddTail_other hold.bufs (by simpa using absent.1) (by simpa using absent.2)]
    exact hold.loose ptr (by omega) absent.1

theorem delBuf_hold (ptr : Nat) :
    Matches Represents (linkOps.delBuf ptr ⟨c, links⟩) (listOps.delBuf ptr ⟨c, l⟩) := by
  by_cases listed : ptr ∈ l.sendBufList
  next =>
    have member : Node.sendBuf ptr ∈ bufNodes l := by simpa using listed
    have here := @access_buf c links l _ hold.made (List.mem_cons_of_mem _ member)
    have next := @access_buf c links l _ hold.made (hold.bufs.next_mem member)
    have prev := @access_buf c links l _ hold.made (hold.bufs.prev_mem member)
    have ring := hold.bufs.erase .poison₁ .poison₂ member
    simp only [linkOps, Heap.listDel, here, next, prev, done_andThen, Heap.setLinks, listOps,
      if_pos listed]
    refine .done (.intro ⟨?_, ?_, fun p inside => hold.made p (List.mem_of_mem_erase inside),
      hold.live, ?_, hold.released⟩)
    next =>
      have nodes : (bufNodes l).erase (.sendBuf ptr) = (l.sendBufList.erase ptr).map .sendBuf :=
        (List.map_erase (fun _ _ => Node.sendBuf.inj) _).symm
      rwa [nodes] at ring
    next =>
      refine hold.units.congr fun node inside => ?_
      exact listDel_other _ _ hold.bufs member (unit_not_buf inside).1
    next =>
      intro p small absent
      by_cases same : p = ptr
      next => rw [listDel_next, if_pos (by rw [same])]
      next =>
        have outside : p ∉ l.sendBufList := fun inside =>
          absent ((List.mem_erase_of_ne same).mpr inside)
        rw [listDel_other _ _ hold.bufs member (by simpa using outside)]
        exact hold.loose p small outside
  next =>
    -- A record that is not on the list was unlinked before, or is none.
    have faults : linkOps.delBuf ptr ⟨c, links⟩ = .fault ⟨c, links⟩ := by
      simp only [linkOps, Heap.listDel]
      by_cases small : ptr < c.bufCount
      next =>
        have here : Heap.access ⟨c, links⟩ (.sendBuf ptr) = .done () ⟨c, links⟩ := if_pos small
        rw [here, done_andThen, hold.loose ptr small listed]
        rfl
      next =>
        have here : Heap.access ⟨c, links⟩ (.sendBuf ptr) = .fault ⟨c, links⟩ := if_neg small
        rw [here]
        rfl
    rw [faults]
    simp only [listOps, if_neg listed]
    exact .fault (.intro hold)

theorem addUnit_hold {ptr : Nat} (live : c.UnitLive ptr) (fresh : ptr ∉ l.sendUnitList) :
    Matches Represents (linkOps.addUnit ptr ⟨c, links⟩) (listOps.addUnit ptr ⟨c, l⟩) := by
  have last := @access_unit c links l _ hold.live hold.units.last_mem
  simp only [linkOps, Heap.listAddTail, last, done_andThen, Heap.setLinks, listOps]
  refine .done (.intro ⟨?_, ?_, hold.made, ?_, ?_, hold.released⟩)
  next =>
    refine hold.bufs.congr fun node member => ?_
    obtain ⟨outside, other⟩ := buf_not_unit member
    exact listAddTail_other hold.units outside (other _)
  next => simpa [unitNodes] using hold.units.append (by simpa [unitNodes] using fresh)
  next =>
    intro p listed
    rcases List.mem_append.mp listed with old | new
    next => exact hold.live p old
    next => rwa [List.mem_singleton.mp new]
  next =>
    intro p small absent
    rw [listAddTail_other hold.units (by simp [unitNodes]) (by simp)]
    exact hold.loose p small absent

theorem delUnit_hold {ptr : Nat} (listed : ptr ∈ l.sendUnitList) :
    Matches Represents (linkOps.delUnit ptr ⟨c, links⟩) (listOps.delUnit ptr ⟨c, l⟩) := by
  have member : Node.sendUnit ptr ∈ unitNodes l := by simpa using listed
  have here := @access_unit c links l _ hold.live (List.mem_cons_of_mem _ member)
  have next := @access_unit c links l _ hold.live (hold.units.next_mem member)
  have prev := @access_unit c links l _ hold.live (hold.units.prev_mem member)
  have ring := hold.units.erase .poison₁ .poison₂ member
  simp only [linkOps, Heap.listDel, here, next, prev, done_andThen, Heap.setLinks, listOps,
    if_pos listed]
  refine .done (.intro ⟨?_, ?_, hold.made, fun p inside => hold.live p (List.mem_of_mem_erase inside),
    ?_, hold.released⟩)
  next =>
    refine hold.bufs.congr fun node inside => ?_
    exact listDel_other _ _ hold.units member (buf_not_unit inside).1
  next =>
    have nodes : (unitNodes l).erase (.sendUnit ptr) = (l.sendUnitList.erase ptr).map .sendUnit :=
      (List.map_erase (fun _ _ => Node.sendUnit.inj) _).symm
    rwa [nodes] at ring
  next =>
    intro p small absent
    rw [listDel_other _ _ hold.units member (by simp [unitNodes])]
    exact hold.loose p small absent

end Hold

theorem Links.Hold.frame {c c' : Cells} {links : Links Node} {l : Lists}
    (hold : Links.Hold c links l) (count : c'.bufCount = c.bufCount)
    (live : ∀ ptr ∈ l.sendUnitList, c'.UnitLive ptr)
    (released : ∀ ptr, .sendUnit ptr ∈ c'.freed → ptr < c'.unitCount) : Links.Hold c' links l :=
  ⟨hold.bufs, hold.units, count ▸ hold.made, live, count ▸ hold.loose, released⟩

def Settled (q : State Lists) : Prop :=
  ∀ ptr, q.cells.UnitLive ptr → ptr ∈ q.lists.sendUnitList

structure UnitsKept (q q' : State Lists) : Prop where
  count : q'.cells.unitCount = q.cells.unitCount
  live : ∀ ptr, q'.cells.UnitLive ptr ↔ q.cells.UnitLive ptr
  list : q'.lists.sendUnitList = q.lists.sendUnitList

theorem getSendBuf_keeps (malloc : Nat → Bool) (buf buflen : Nat) (q : State Lists) :
    ∃ b q', getSendBuf listOps malloc buf buflen q = .done b q' ∧ UnitsKept q q' := by
  have found : listOps.search (q.cells.same buf buflen) q =
      .done (q.lists.sendBufList.find? (q.cells.same buf buflen)) q := rfl
  rw [getSendBuf, found, done_andThen]
  cases q.lists.sendBufList.find? (q.cells.same buf buflen) with
  | some ptr => exact ⟨_, _, rfl, ⟨rfl, fun _ => Iff.rfl, rfl⟩⟩
  | none =>
    dsimp only
    split
    next => exact ⟨_, _, rfl, ⟨rfl, fun _ => Iff.rfl, rfl⟩⟩
    next => exact ⟨_, _, rfl, ⟨rfl, fun _ => Iff.rfl, rfl⟩⟩

theorem delSendBuf_keeps {ptr : Option Nat} {q q' : State Lists} {x : Unit}
    (returned : delSendBuf listOps ptr q = .done x q') : UnitsKept q q' := by
  cases ptr with
  | none => cases returned
  | some ptr =>
    simp only [delSendBuf, listOps] at returned
    split at returned
    next =>
      split at returned
      next =>
        cases returned
        refine ⟨rfl, fun u => ?_, rfl⟩
        simp [Cells.UnitLive, State.update, Cells.free]
      next => cases returned
    next =>
      cases returned
      exact ⟨rfl, fun _ => Iff.rfl, rfl⟩

section Program

variable {malloc : Nat → Bool} {h : Heap} {q : State Lists} (same : Represents h q)

include same

theorem getSendBuf_matches (buf buflen : Nat) :
    Matches Represents (getSendBuf linkOps malloc buf buflen h)
      (getSendBuf listOps malloc buf buflen q) := by
  obtain ⟨hold⟩ := same
  rename_i c links l
  have found : listOps.search (c.same buf buflen) ⟨c, l⟩ =
      .done (l.sendBufList.find? (c.same buf buflen)) ⟨c, l⟩ := rfl
  rw [getSendBuf, getSendBuf, search_finds hold, done_andThen, found, done_andThen]
  cases l.sendBufList.find? (c.same buf buflen) with
  | some ptr => exact .done (.intro (hold.frame rfl hold.live hold.released))
  | none =>
    dsimp only
    split
    next =>
      refine Matches.andThen (addBuf_hold hold ?_ ?_ ?_) fun _ _ _ _ added => .done added
      iterate 3 rfl
    next => exact .done (.intro (hold.frame rfl hold.live hold.released))

theorem delSendBuf_matches (ptr : Option Nat) :
    Matches Represents (delSendBuf linkOps ptr h) (delSendBuf listOps ptr q) := by
  obtain ⟨hold⟩ := same
  rename_i c links l
  cases ptr with
  | none => exact .crash (.intro hold)
  | some ptr =>
    simp only [delSendBuf]
    split
    next =>
      refine delBuf_hold (hold.frame ?_ ?_ ?_) ptr
      next => rfl
      next =>
        intro u listed
        obtain ⟨small, kept⟩ := hold.live u listed
        exact ⟨small, by simpa [Cells.free] using kept⟩
      next =>
        intro u freed
        exact hold.released u (by simpa [Cells.free] using freed)
    next => exact .done (.intro (hold.frame rfl hold.live hold.released))

theorem getSendUnit_matches (dest source : SockaddrIn) (buf buflen cb arg : Nat)
    (wait retry : Int32) :
    Matches Represents (getSendUnit linkOps malloc dest source buf buflen cb arg wait retry h)
      (getSendUnit listOps malloc dest source buf buflen cb arg wait retry q) := by
  obtain ⟨hold⟩ := same
  rename_i c links l
  rw [getSendUnit, getSendUnit]
  dsimp only
  split
  next =>
    let c₁ : Cells := { c with mallocs := c.mallocs + 1, unitCount := c.unitCount + 1 }
    have begun : Represents ⟨c₁, links⟩ ⟨c₁, l⟩ := by
      refine .intro (hold.frame rfl ?_ fun u freed => Nat.lt_succ_of_lt (hold.released u freed))
      intro u listed
      obtain ⟨small, kept⟩ := hold.live u listed
      exact ⟨Nat.lt_succ_of_lt small, kept⟩
    obtain ⟨b, q', taken, kept⟩ := getSendBuf_keeps malloc buf buflen ⟨c₁, l⟩
    have matched := @getSendBuf_matches malloc _ _ begun buf buflen
    rw [taken] at matched
    obtain ⟨h', taken', same'⟩ := matched.returned
    have first : State.update (State.counted ⟨c, links⟩)
        (fun d => { d with unitCount := c.unitCount + 1 }) = ⟨c₁, links⟩ := rfl
    have second : State.update (State.counted ⟨c, l⟩)
        (fun d => { d with unitCount := c.unitCount + 1 }) = ⟨c₁, l⟩ := rfl
    rw [first, second, taken, taken', done_andThen, done_andThen]
    obtain ⟨hold'⟩ := same'
    rename_i c' links' l'
    have live : c'.UnitLive c.unitCount := by
      refine (kept.live c.unitCount).mpr ⟨Nat.lt_succ_self _, fun freed => ?_⟩
      exact Nat.lt_irrefl _ (hold.released _ freed)
    have fresh : c.unitCount ∉ l'.sendUnitList := by
      rw [kept.list]
      exact fun listed => Nat.lt_irrefl _ (hold.live _ listed).1
    refine Matches.andThen (addUnit_hold (hold'.frame ?_ ?_ ?_) ?_ fresh)
      fun _ _ _ _ added => .done added
    next => rfl
    next => exact hold'.live
    next => exact hold'.released
    next => exact live
  next => exact .done (.intro (hold.frame rfl hold.live hold.released))

theorem freeSendUnit_matches (settled : Settled q) (ptr : Option Nat) :
    Matches Represents (freeSendUnit linkOps ptr h) (freeSendUnit listOps ptr q) := by
  cases ptr with
  | none => exact .done same
  | some ptr =>
    have cells : h.cells = q.cells := by
      obtain ⟨hold⟩ := same
      rfl
    rw [freeSendUnit, freeSendUnit, cells]
    split
    next live =>
      split
      next =>
        refine Matches.andThen (delSendBuf_matches same _) ?_
        intro _ h₁ q₁ returned same₁
        have listed : ptr ∈ q₁.lists.sendUnitList := by
          rw [(delSendBuf_keeps returned).list]
          exact settled ptr live
        have live₁ := ((delSendBuf_keeps returned).live ptr).mpr live
        obtain ⟨hold⟩ := same₁
        rename_i c links l
        have distinct : l.sendUnitList.Nodup := (List.nodup_cons.mp hold.units.nodup).2.of_map _
        refine Matches.andThen (delUnit_hold hold listed) ?_
        intro _ h₂ q₂ returned₂ same₂
        simp only [listOps, if_pos listed] at returned₂
        cases returned₂
        obtain ⟨hold₂⟩ := same₂
        refine .done (.intro (hold₂.frame rfl ?_ ?_))
        next =>
          intro u inside
          obtain ⟨other, -⟩ := distinct.mem_erase_iff.mp inside
          obtain ⟨small, kept⟩ := hold₂.live u inside
          exact ⟨small, by simpa [Cells.free, other] using kept⟩
        next =>
          intro u freed
          rcases List.mem_append.mp freed with old | new
          next => exact hold₂.released u old
          next =>
            cases List.mem_singleton.mp new
            exact live₁.1
      next =>
        obtain ⟨hold⟩ := same
        exact .done (.intro (hold.frame rfl hold.live hold.released))
    next => exact .fault same

end Program

theorem getSendUnit_settled {malloc : Nat → Bool} {q q' : State Lists} (settled : Settled q)
    {dest source : SockaddrIn} {buf buflen cb arg : Nat} {wait retry : Int32} {ptr : Option Nat}
    (returned : getSendUnit listOps malloc dest source buf buflen cb arg wait retry q =
      .done ptr q') : Settled q' := by
  rw [getSendUnit] at returned
  dsimp only at returned
  split at returned
  next =>
    obtain ⟨b, q₁, taken, kept⟩ := getSendBuf_keeps malloc buf buflen
      (q.counted.update fun c => { c with unitCount := q.cells.unitCount + 1 })
    rw [taken, done_andThen] at returned
    cases returned
    intro u live
    have before := (kept.live u).mp live
    refine List.mem_append.mpr ?_
    rcases Nat.lt_succ_iff_lt_or_eq.mp before.1 with small | rfl
    next =>
      refine .inl ?_
      change u ∈ q₁.lists.sendUnitList
      rw [kept.list]
      exact settled u ⟨small, before.2⟩
    next => exact .inr (List.mem_singleton.mpr rfl)
  next =>
    cases returned
    exact settled

theorem freeSendUnit_settled {q q' : State Lists} (settled : Settled q) {ptr : Option Nat} {x : Unit}
    (returned : freeSendUnit listOps ptr q = .done x q') : Settled q' := by
  cases ptr with
  | none =>
    cases returned
    exact settled
  | some ptr =>
    rw [freeSendUnit] at returned
    split at returned
    next live =>
      split at returned
      next =>
        obtain ⟨_, q₁, first, rest⟩ := andThen_eq_done returned
        obtain ⟨_, q₂, second, last⟩ := andThen_eq_done rest
        have kept := delSendBuf_keeps first
        simp only [listOps] at second
        split at second
        next listed =>
          cases second
          cases last
          intro u alive
          obtain ⟨small, there⟩ := alive
          have apart : .sendUnit u ∉ q₁.cells.freed ∧ u ≠ ptr := by
            simpa [State.update, Cells.free] using there
          refine (List.mem_erase_of_ne apart.2).mpr ?_
          rw [kept.list]
          exact settled u ((kept.live u).mp ⟨small, apart.1⟩)
        next => cases second
      next =>
        cases returned
        exact settled
    next => cases returned

section Run

variable (malloc : Nat → Bool)

theorem exec_settled {q q' : State Lists} (settled : Settled q) {op : Op} {x : Unit}
    (returned : exec listOps malloc op q = .done x q') : Settled q' := by
  cases op with
  | get dest source buf buflen cb arg wait retry =>
    obtain ⟨ptr, q₁, made, last⟩ := andThen_eq_done returned
    cases last
    exact getSendUnit_settled settled made
  | free ptr => exact freeSendUnit_settled settled returned
  | write addr byte =>
    cases returned
    exact settled

theorem exec_matches {h : Heap} {q : State Lists} (same : Represents h q) (settled : Settled q)
    (op : Op) : Matches Represents (exec linkOps malloc op h) (exec listOps malloc op q) := by
  cases op with
  | get dest source buf buflen cb arg wait retry =>
    exact Matches.andThen (getSendUnit_matches same dest source buf buflen cb arg wait retry)
      fun _ _ _ _ made => .done made
  | free ptr => exact freeSendUnit_matches same settled ptr
  | write addr byte =>
    obtain ⟨hold⟩ := same
    exact .done (.intro (hold.frame rfl hold.live hold.released))

theorem run_matches (ops : List Op) {h : Heap} {q : State Lists} (same : Represents h q)
    (settled : Settled q) :
    Matches Represents (run linkOps malloc ops h) (run listOps malloc ops q) := by
  induction ops generalizing h q with
  | nil => exact .done same
  | cons op ops ih =>
    refine Matches.andThen (exec_matches malloc same settled op) ?_
    intro _ h₁ q₁ returned same₁
    exact ih same₁ (exec_settled malloc settled returned)

theorem run_settled (ops : List Op) {q q' : State Lists} (settled : Settled q) {x : Unit}
    (returned : run listOps malloc ops q = .done x q') : Settled q' := by
  induction ops generalizing q with
  | nil =>
    cases returned
    exact settled
  | cons op ops ih =>
    obtain ⟨_, q₁, first, rest⟩ := andThen_eq_done returned
    exact ih (exec_settled malloc settled first) rest

end Run

def initialLists (refBits : Nat) (mem : Nat → UInt8) : State Lists :=
  ⟨.initial refBits mem, ⟨[], []⟩⟩

theorem initial_represents (refBits : Nat) (mem : Nat → UInt8) :
    Represents (Heap.initial refBits mem) (initialLists refBits mem) := by
  refine .intro ⟨?_, Ring.init _ _, by simp, by simp, ?_, ?_⟩
  next =>
    refine (Ring.init (fun _ => ⟨.null, .null⟩) Node.sendBufList).congr fun node member => ?_
    rw [List.mem_singleton.mp member]
    simp [initListHead, setNext, setPrev]
  next =>
    intro ptr small
    exact absurd small (Nat.not_lt_zero _)
  next =>
    intro ptr freed
    cases freed

theorem initial_settled (refBits : Nat) (mem : Nat → UInt8) : Settled (initialLists refBits mem) :=
  fun _ live => absurd live.1 (Nat.not_lt_zero _)

end BTServer.Socket.Linked
