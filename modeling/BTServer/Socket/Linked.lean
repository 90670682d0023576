import BTServer.Shared.LinkedList
import BTServer.Shared.Outcome
import BTServer.Socket.SendQueue

set_option autoImplicit false

-- The send queue with the links of its lists and with a `malloc` that can fail.
namespace BTServer.Socket.Linked

open LinkedList Outcome

/-- A unit. It has no record if there was no memory for one. -/
structure Entry where
  dest : SockaddrIn
  source : SockaddrIn
  buf : Option Nat
  cb : Nat
  arg : Nat
  timeout : Int32
  retry : Int32
  refCount : Nat

-- All but the lists. `mallocs` counts the calls, whether they succeed or not.
structure Cells where
  refBits : Nat
  mem : Nat → UInt8
  sendBufs : Nat → SendBuf
  bufCount : Nat
  sendUnits : Nat → Entry
  unitCount : Nat
  freed : List Block
  mallocs : Nat

namespace Cells

def bytes (c : Cells) (addr len : Nat) : Bytes := (List.range len).map fun i => c.mem (addr + i)

def same (c : Cells) (buf buflen ptr : Nat) : Bool :=
  (c.sendBufs ptr).buflen = buflen && c.bytes (c.sendBufs ptr).buf buflen = c.bytes buf buflen

def setSendBuf (c : Cells) (ptr : Nat) (b : SendBuf) : Cells :=
  { c with sendBufs := Function.update c.sendBufs ptr b }

def setSendUnit (c : Cells) (ptr : Nat) (u : Entry) : Cells :=
  { c with sendUnits := Function.update c.sendUnits ptr u }

def addSendBufRefCount (c : Cells) (ptr : Nat) : Cells :=
  c.setSendBuf ptr { c.sendBufs ptr with
    refCount := ((c.sendBufs ptr).refCount + 1) % 2 ^ c.refBits }

def delSendBufRefCount (c : Cells) (ptr : Nat) : Cells :=
  c.setSendBuf ptr { c.sendBufs ptr with refCount := (c.sendBufs ptr).refCount - 1 }

def addSendUnitRef (c : Cells) (ptr : Nat) : Cells :=
  c.setSendUnit ptr { c.sendUnits ptr with
    refCount := ((c.sendUnits ptr).refCount + 1) % 2 ^ c.refBits }

def delSendUnitRef (c : Cells) (ptr : Nat) : Cells :=
  c.setSendUnit ptr { c.sendUnits ptr with refCount := (c.sendUnits ptr).refCount - 1 }

def free (c : Cells) (block : Block) : Cells := { c with freed := c.freed ++ [block] }

def UnitLive (c : Cells) (ptr : Nat) : Prop := ptr < c.unitCount ∧ .sendUnit ptr ∉ c.freed

instance (c : Cells) (ptr : Nat) : Decidable (c.UnitLive ptr) :=
  inferInstanceAs (Decidable (_ ∧ _))

end Cells

structure State (L : Type) where
  cells : Cells
  lists : L

variable {L : Type}

def State.update (s : State L) (f : Cells → Cells) : State L := { s with cells := f s.cells }

/-- What the code asks of `list.h`: the loop over `send_buf_list` that returns at the first record
that passes a test, and `list_add_tail` and `list_del` on either list. -/
structure ListOps (L : Type) where
  search : (Nat → Bool) → State L → Outcome (State L) (Option Nat)
  addBuf : Nat → State L → Outcome (State L) Unit
  delBuf : Nat → State L → Outcome (State L) Unit
  addUnit : Nat → State L → Outcome (State L) Unit
  delUnit : Nat → State L → Outcome (State L) Unit

section Program

variable (ops : ListOps L) (malloc : Nat → Bool)

def State.counted (s : State L) : State L := s.update fun c => { c with mallocs := c.mallocs + 1 }

def getSendBuf (buf buflen : Nat) (s : State L) : Outcome (State L) (Option Nat) :=
  (ops.search (s.cells.same buf buflen) s).andThen fun found s =>
    match found with
    | some ptr => .done (some ptr) (s.update (·.addSendBufRefCount ptr))
    | none =>
      if malloc s.cells.mallocs then
        let ptr := s.cells.bufCount
        let s := s.counted.update fun c =>
          { c with bufCount := ptr + 1 }.setSendBuf ptr { buf, buflen, refCount := 0 }
        let s := s.update (·.addSendBufRefCount ptr)
        (ops.addBuf ptr s).andThen fun _ s => .done (some ptr) s
      else .done none s.counted

/-- The pointer is not checked. -/
def delSendBuf (ptr : Option Nat) (s : State L) : Outcome (State L) Unit :=
  match ptr with
  | none => .crash s
  | some ptr =>
    if (s.cells.sendBufs ptr).refCount = 0 then
      ops.delBuf ptr (s.update (·.free (.data (s.cells.sendBufs ptr).buf)))
    else .done () (s.update (·.delSendBufRefCount ptr))

def getSendUnit (dest source : SockaddrIn) (buf buflen cb arg : Nat) (timeout retry : Int32)
    (s : State L) : Outcome (State L) (Option Nat) :=
  if malloc s.cells.mallocs then
    let ptr := s.cells.unitCount
    let s := s.counted.update fun c => { c with unitCount := ptr + 1 }
    (getSendBuf ops malloc buf buflen s).andThen fun b s =>
      let s := s.update (·.setSendUnit ptr
        { dest, source, buf := b, cb, arg, timeout, retry, refCount := 0 })
      let s := s.update (·.addSendUnitRef ptr)
      (ops.addUnit ptr s).andThen fun _ s => .done (some ptr) s
  else .done none s.counted

def freeSendUnit (ptr : Option Nat) (s : State L) : Outcome (State L) Unit :=
  match ptr with
  | none => .done () s
  | some ptr =>
    if s.cells.UnitLive ptr then
      if (s.cells.sendUnits ptr).refCount = 0 then
        (delSendBuf ops (s.cells.sendUnits ptr).buf s).andThen fun _ s =>
          (ops.delUnit ptr s).andThen fun _ s => .done () (s.update (·.free (.sendUnit ptr)))
      else .done () (s.update (·.delSendUnitRef ptr))
    else .fault s

def exec (op : Op) (s : State L) : Outcome (State L) Unit :=
  match op with
  | .get dest source buf buflen cb arg wait retry =>
    (getSendUnit ops malloc dest source buf buflen cb arg wait retry s).andThen fun _ s =>
      .done () s
  | .free ptr => freeSendUnit ops ptr s
  | .write addr byte =>
    .done () (s.update fun c => { c with mem := Function.update c.mem addr byte })

def run : List Op → State L → Outcome (State L) Unit
  | [], s => .done () s
  | op :: later, s => (exec ops malloc op s).andThen fun _ s => run later s

end Program

-- The lists as lists.

structure Lists where
  sendBufList : List Nat
  sendUnitList : List Nat

def listOps : ListOps Lists where
  search test s := .done (s.lists.sendBufList.find? test) s
  addBuf ptr s :=
    .done () { s with lists := { s.lists with sendBufList := s.lists.sendBufList ++ [ptr] } }
  delBuf ptr s :=
    if ptr ∈ s.lists.sendBufList then
      .done () { s with lists := { s.lists with sendBufList := s.lists.sendBufList.erase ptr } }
    else .fault s
  addUnit ptr s :=
    .done () { s with lists := { s.lists with sendUnitList := s.lists.sendUnitList ++ [ptr] } }
  delUnit ptr s :=
    if ptr ∈ s.lists.sendUnitList then
      .done () { s with lists := { s.lists with sendUnitList := s.lists.sendUnitList.erase ptr } }
    else .fault s

-- The lists as links in memory.

inductive Node where
  | sendBufList
  | sendUnitList
  | sendBuf (ptr : Nat)
  | sendUnit (ptr : Nat)
  | null
  | poison₁
  | poison₂
  deriving DecidableEq

abbrev Heap := State (Links Node)

def Heap.setLinks (h : Heap) (links : Links Node) : Heap := { h with lists := links }

def Heap.access (h : Heap) (node : Node) : Outcome Heap Unit :=
  match node with
  | .sendBufList => .done () h
  | .sendUnitList => .done () h
  | .sendBuf ptr => if ptr < h.cells.bufCount then .done () h else .fault h
  | .sendUnit ptr => if h.cells.UnitLive ptr then .done () h else .fault h
  | .null => .crash h
  | .poison₁ => .fault h
  | .poison₂ => .fault h

def Heap.listAddTail (new head : Node) (h : Heap) : Outcome Heap Unit :=
  (Heap.access h (h.lists head).prev).andThen fun _ h =>
    .done () (Heap.setLinks h (LinkedList.listAddTail h.lists new head))

def Heap.listDel (entry : Node) (h : Heap) : Outcome Heap Unit :=
  (Heap.access h entry).andThen fun _ h =>
    (Heap.access h (h.lists entry).next).andThen fun _ h =>
      (Heap.access h (h.lists entry).prev).andThen fun _ h =>
        .done () (Heap.setLinks h (LinkedList.listDel .poison₁ .poison₂ h.lists entry))

-- The loop over `send_buf_list`, from a node on.
def Heap.searchFrom (test : Nat → Bool) : Nat → Node → Heap → Outcome Heap (Option Nat)
  | 0, _, h => .timeout h
  | fuel + 1, node, h =>
    if node = .sendBufList then .done none h
    else
      (Heap.access h node).andThen fun _ h =>
        match node with
        | .sendBuf ptr =>
          if test ptr then .done (some ptr) h
          else Heap.searchFrom test fuel (h.lists node).next h
        | _ => .fault h

def linkOps : ListOps (Links Node) where
  search test h := Heap.searchFrom test (h.cells.bufCount + 1) (h.lists .sendBufList).next h
  addBuf ptr h := Heap.listAddTail (.sendBuf ptr) .sendBufList h
  delBuf ptr h := Heap.listDel (.sendBuf ptr) h
  addUnit ptr h := Heap.listAddTail (.sendUnit ptr) .sendUnitList h
  delUnit ptr h := Heap.listDel (.sendUnit ptr) h

-- LIST_HEAD_INIT points both heads to themselves; nothing has been allocated.
def Cells.initial (refBits : Nat) (mem : Nat → UInt8) : Cells where
  refBits
  mem
  sendBufs _ := ⟨0, 0, 0⟩
  bufCount := 0
  sendUnits _ := ⟨⟨0, 0, 0⟩, ⟨0, 0, 0⟩, none, 0, 0, 0, 0, 0⟩
  unitCount := 0
  freed := []
  mallocs := 0

def Heap.initial (refBits : Nat) (mem : Nat → UInt8) : Heap where
  cells := .initial refBits mem
  lists := initListHead (initListHead (fun _ => ⟨.null, .null⟩) .sendBufList) .sendUnitList

end BTServer.Socket.Linked
