import Mathlib.Logic.Function.Basic
import Mathlib.Data.List.Basic

set_option autoImplicit false

namespace BTServer.Blocks

structure Block where
  size : Nat
  byte : Nat → UInt8

structure Ptr where
  block : Nat
  offset : Nat
  deriving DecidableEq

def Ptr.add (p : Ptr) (n : Nat) : Ptr := { p with offset := p.offset + n }

def Ptr.sub (p : Ptr) (n : Nat) : Ptr := { p with offset := p.offset - n }

@[simp] theorem Ptr.add_block (p : Ptr) (n : Nat) : (p.add n).block = p.block := rfl
@[simp] theorem Ptr.add_offset (p : Ptr) (n : Nat) : (p.add n).offset = p.offset + n := rfl
@[simp] theorem Ptr.sub_block (p : Ptr) (n : Nat) : (p.sub n).block = p.block := rfl
@[simp] theorem Ptr.sub_offset (p : Ptr) (n : Nat) : (p.sub n).offset = p.offset - n := rfl

theorem Ptr.add_sub_of_le (p : Ptr) (n k : Nat) (le : k ≤ n) (room : n ≤ p.offset) :
    (p.sub n).add k = p.sub (n - k) := by
  rcases p with ⟨block, offset⟩
  simp only [Ptr.add, Ptr.sub, Ptr.mk.injEq, true_and] at room ⊢
  omega

structure Access where
  block : Nat
  start : Nat
  length : Nat

-- A block keeps a byte at every offset: those from `size` on belong to whatever surrounds it, so
-- a stray access has a result and is told apart by the log only.
structure Memory where
  blocks : Nat → Block
  next : Nat
  accesses : List Access
  freed : List Nat

def Memory.load (m : Memory) (p : Ptr) : Nat → List UInt8
  | 0 => []
  | count + 1 => (m.blocks p.block).byte p.offset :: m.load (p.add 1) count

def Memory.malloc (m : Memory) (size : Nat) : Ptr × Memory :=
  (⟨m.next, 0⟩,
    { m with
      blocks := Function.update m.blocks m.next { m.blocks m.next with size }
      next := m.next + 1 })

def Memory.free (m : Memory) (p : Ptr) : Memory := { m with freed := m.freed ++ [p.block] }

def Memory.store (m : Memory) (p : Ptr) (bytes : List UInt8) : Memory :=
  { m with
    blocks := Function.update m.blocks p.block
      { m.blocks p.block with
        byte := fun i =>
          if p.offset ≤ i then bytes[i - p.offset]?.getD ((m.blocks p.block).byte i)
          else (m.blocks p.block).byte i }
    accesses := m.accesses ++ [⟨p.block, p.offset, bytes.length⟩] }

def Memory.memset (m : Memory) (p : Ptr) (value : UInt8) (count : Nat) : Memory :=
  m.store p (List.replicate count value)

def Memory.read (m : Memory) (p : Ptr) (count : Nat) : Memory :=
  { m with accesses := m.accesses ++ [⟨p.block, p.offset, count⟩] }

def Memory.memcpy (m : Memory) (dst src : Ptr) (count : Nat) : Memory :=
  (m.read src count).store dst (m.load src count)

def Memory.Inside (m : Memory) (a : Access) : Prop :=
  ∀ i, a.start ≤ i → i < a.start + a.length → i < (m.blocks a.block).size

@[simp] theorem Memory.load_length (m : Memory) (p : Ptr) (count : Nat) :
    (m.load p count).length = count := by
  induction count generalizing p with
  | zero => rfl
  | succ count ih => simp [Memory.load, ih]

theorem Memory.load_add (m : Memory) (p : Ptr) (a b : Nat) :
    m.load p (a + b) = m.load p a ++ m.load (p.add a) b := by
  induction a generalizing p with
  | zero => simp [Memory.load, Ptr.add]
  | succ a ih =>
    have shift : (p.add 1).add a = p.add (a + 1) := by
      simp only [Ptr.add, Ptr.mk.injEq, true_and]
      omega
    rw [show a + 1 + b = (a + b) + 1 by omega]
    simp only [Memory.load, ih, shift, List.cons_append]

theorem Memory.load_congr (m n : Memory) (p : Ptr) (count : Nat)
    (same : ∀ i, p.offset ≤ i → i < p.offset + count →
      (m.blocks p.block).byte i = (n.blocks p.block).byte i) :
    m.load p count = n.load p count := by
  induction count generalizing p with
  | zero => rfl
  | succ count ih =>
    have rest := ih (p.add 1) (fun i low high =>
      same i (by simp only [Ptr.add_offset] at low; omega)
        (by simp only [Ptr.add_offset] at high; omega))
    simp only [Memory.load, rest, same p.offset (Nat.le_refl _) (by omega)]

theorem Memory.load_store (m : Memory) (p : Ptr) (bytes : List UInt8) :
    (m.store p bytes).load p bytes.length = bytes := by
  have suffix (k : Nat) (rest : List UInt8) (split : bytes = bytes.take k ++ rest)
      (inside : k ≤ bytes.length) :
      (m.store p bytes).load (p.add k) rest.length = rest := by
    induction rest generalizing k with
    | nil => rfl
    | cons x rest ih =>
      have len := congrArg List.length split
      simp only [List.length_append, List.length_take, List.length_cons] at len
      have here : bytes[k]? = some x := by
        rw [split, List.getElem?_append_right (List.length_take_le _ _)]
        simp [Nat.min_eq_left inside]
      have later : bytes = bytes.take (k + 1) ++ rest := by
        rw [List.take_add_one, here]
        simpa using split
      have step := ih (k + 1) later (by omega)
      have shift : (p.add k).add 1 = p.add (k + 1) := rfl
      simp only [List.length_cons, Memory.load, shift, step, List.cons.injEq, and_true]
      simp [Memory.store, here]
  simpa [Ptr.add] using suffix 0 bytes (by simp) (Nat.zero_le _)

theorem Memory.load_store_frame (m : Memory) (p q : Ptr) (bytes : List UInt8) (count : Nat)
    (apart : p.block = q.block →
      q.offset + count ≤ p.offset ∨ p.offset + bytes.length ≤ q.offset) :
    (m.store p bytes).load q count = m.load q count := by
  apply Memory.load_congr
  intro i low high
  by_cases same : q.block = p.block
  · simp only [Memory.store, same, Function.update_self]
    rcases apart same.symm with before | after
    · rw [if_neg (by omega)]
    · rw [if_pos (by omega), List.getElem?_eq_none (by omega), Option.getD_none]
  · simp [Memory.store, Function.update_of_ne same]

theorem Memory.load_store_other (m : Memory) (p q : Ptr) (bytes : List UInt8) (count : Nat)
    (other : p.block ≠ q.block) : (m.store p bytes).load q count = m.load q count :=
  Memory.load_store_frame m p q bytes count (fun same => (other same).elim)

theorem Memory.load_malloc (m : Memory) (size : Nat) (p : Ptr) (count : Nat) :
    (m.malloc size).2.load p count = m.load p count := by
  apply Memory.load_congr
  intro i _ _
  by_cases fresh : p.block = m.next
  · simp [Memory.malloc, fresh]
  · simp [Memory.malloc, Function.update_of_ne fresh]

@[simp] theorem Memory.load_free (m : Memory) (q p : Ptr) (count : Nat) :
    (m.free q).load p count = m.load p count :=
  Memory.load_congr _ _ _ _ (fun _ _ _ => rfl)

@[simp] theorem Memory.load_read (m : Memory) (q p : Ptr) (other count : Nat) :
    (m.read q other).load p count = m.load p count :=
  Memory.load_congr _ _ _ _ (fun _ _ _ => rfl)

theorem Memory.load_memcpy (m : Memory) (dst src : Ptr) (count : Nat) :
    (m.memcpy dst src count).load dst count = m.load src count := by
  have stored := Memory.load_store (m.read src count) dst (m.load src count)
  rwa [Memory.load_length] at stored

theorem Memory.load_memcpy_frame (m : Memory) (dst src q : Ptr) (count other : Nat)
    (apart : dst.block = q.block →
      q.offset + other ≤ dst.offset ∨ dst.offset + count ≤ q.offset) :
    (m.memcpy dst src count).load q other = m.load q other := by
  rw [Memory.memcpy, Memory.load_store_frame _ _ _ _ _ (by simpa using apart),
    Memory.load_read]

theorem Memory.load_store_append (m : Memory) (p : Ptr) (count : Nat) (bytes : List UInt8) :
    (m.store (p.add count) bytes).load p (count + bytes.length) = m.load p count ++ bytes := by
  rw [Memory.load_add, Memory.load_store, Memory.load_store_frame]
  exact fun _ => .inl (Nat.le_refl _)

theorem Memory.load_memcpy_append (m : Memory) (p src : Ptr) (count other : Nat) :
    (m.memcpy (p.add count) src other).load p (count + other) =
      m.load p count ++ m.load src other := by
  rw [Memory.load_add, Memory.load_memcpy, Memory.load_memcpy_frame]
  exact fun _ => .inl (Nat.le_refl _)

@[simp] theorem Memory.store_size (m : Memory) (p : Ptr) (bytes : List UInt8) (block : Nat) :
    ((m.store p bytes).blocks block).size = (m.blocks block).size := by
  by_cases same : block = p.block
  · simp [Memory.store, same]
  · simp [Memory.store, Function.update_of_ne same]

@[simp] theorem Memory.memcpy_size (m : Memory) (dst src : Ptr) (count block : Nat) :
    ((m.memcpy dst src count).blocks block).size = (m.blocks block).size := by
  rw [Memory.memcpy, Memory.store_size]
  rfl

@[simp] theorem Memory.free_size (m : Memory) (p : Ptr) (block : Nat) :
    ((m.free p).blocks block).size = (m.blocks block).size := rfl

theorem Memory.malloc_size (m : Memory) (size block : Nat) :
    ((m.malloc size).2.blocks block).size =
      if block = m.next then size else (m.blocks block).size := by
  by_cases fresh : block = m.next
  · simp [Memory.malloc, fresh]
  · simp [Memory.malloc, fresh]

@[simp] theorem Memory.malloc_ptr (m : Memory) (size : Nat) :
    (m.malloc size).1 = ⟨m.next, 0⟩ := rfl

@[simp] theorem Memory.store_accesses (m : Memory) (p : Ptr) (bytes : List UInt8) :
    (m.store p bytes).accesses = m.accesses ++ [⟨p.block, p.offset, bytes.length⟩] := rfl

@[simp] theorem Memory.memcpy_accesses (m : Memory) (dst src : Ptr) (count : Nat) :
    (m.memcpy dst src count).accesses =
      m.accesses ++ [⟨src.block, src.offset, count⟩, ⟨dst.block, dst.offset, count⟩] := by
  simp [Memory.memcpy, Memory.read]

@[simp] theorem Memory.malloc_accesses (m : Memory) (size : Nat) :
    (m.malloc size).2.accesses = m.accesses := rfl

@[simp] theorem Memory.free_accesses (m : Memory) (p : Ptr) :
    (m.free p).accesses = m.accesses := rfl

end BTServer.Blocks
