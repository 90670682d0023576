import BTServer.Peer.Message
import Mathlib.Tactic.Ring

set_option autoImplicit false

namespace BTServer.Peer

open Blocks

def Call.Admissible (m : Memory) : Call → Prop
  | .handshake infoHash peerId =>
      infoHash.block < m.next ∧ infoHash.offset + hashLen ≤ (m.blocks infoHash.block).size ∧
        peerId.block < m.next ∧ peerId.offset + peerIdLen ≤ (m.blocks peerId.block).size
  | .bitfield bitfieldLen bits =>
      bits.block < m.next ∧ bits.offset + bitfieldLen.toNat ≤ (m.blocks bits.block).size
  | .piece _ _ sliceLen ptr =>
      ptr.head.offset = 0 ∧ ptr.data.block = ptr.head.block ∧ ptr.head.block < m.next ∧
        ptr.len = sliceLen ∧ 13 ≤ ptr.room ∧
        (m.blocks ptr.head.block).size = ptr.data.offset + sliceLen.toNat
  | _ => True

def BString.WindowInside (s : BString) (m : Memory) : Prop :=
  s.data.block = s.head.block ∧ s.head.offset ≤ s.data.offset ∧
    s.data.offset + s.len.toNat ≤ (m.blocks s.head.block).size

def Inbounds (result : Option BString × Memory) : Prop :=
  (∀ a ∈ result.2.accesses, result.2.Inside a) ∧
    ∀ s, result.1 = some s → s.WindowInside result.2

def Call.StaysInside (m : Memory) (call : Call) : Prop :=
  Inbounds (call.run { m with accesses := [] })

-- The only generators that never take the copying path, and the head rooms with which
-- `generate_piece_message` does not take it either: 4294967287 is the slice length that makes
-- the length prefix wrap around to zero.
def Call.Copyless : Call → Prop
  | .havePiece _ => False
  | .bitfield _ _ => False
  | .request _ _ _ => False
  | .piece _ _ sliceLen ptr => 13 < ptr.room ∨ sliceLen = 4294967287
  | .cancel _ _ _ => False
  | .port _ => False
  | _ => True

theorem setPrefixAndMsgid_in_place (len : UInt32) (id : UInt8) (ptr : BString) (m : Memory)
    (nonzero : len ≠ 0) (roomy : ptr.room > 5) :
    setPrefixAndMsgid len id (some ptr) m =
      ({ ptr with data := ptr.data.sub 5, len := len + lenPrefix },
        (m.store (ptr.data.sub 5) (htonl len)).store ((ptr.data.sub 5).add 4) [id]) := by
  have five : (lenPrefix + msgIdLen).toNat = 5 := rfl
  simp [setPrefixAndMsgid, prefixBuffer, nonzero, five, roomy,
    show lenPrefix.toNat = 4 from rfl]

theorem setPrefixAndMsgid_wrapped (id : UInt8) (ptr : BString) (m : Memory)
    (roomy : ptr.room > 4) :
    setPrefixAndMsgid 0 id (some ptr) m =
      ({ ptr with data := ptr.data.sub 4, len := lenPrefix }, m.store (ptr.data.sub 4) (htonl 0)) := by
  simp [setPrefixAndMsgid, prefixBuffer, roomy, show lenPrefix.toNat = 4 from rfl]

theorem setPrefixAndMsgid_copies (len : UInt32) (id : UInt8) (ptr : BString) (m : Memory)
    (nonzero : len ≠ 0) (tight : ¬ ptr.room > 5) :
    setPrefixAndMsgid len id (some ptr) m =
      ({ ptr with head := ⟨m.next, 0⟩, data := ⟨m.next, 0⟩, len := len + lenPrefix },
        (((((m.malloc (len + lenPrefix).toNat).2.memcpy ⟨m.next, 5⟩ ptr.data len.toNat).free
          ptr.head).store ⟨m.next, 0⟩ (htonl len)).store ⟨m.next, 4⟩ [id])) := by
  have five : (lenPrefix + msgIdLen).toNat = 5 := rfl
  simp [setPrefixAndMsgid, prefixBuffer, nonzero, five, tight,
    show lenPrefix.toNat = 4 from rfl, Ptr.add]

/-- The copy writes `len` bytes behind five others into a block of `len + 4`. -/
theorem setPrefixAndMsgid_overrun (len : UInt32) (id : UInt8) (ptr : BString) (m : Memory)
    (nonzero : len ≠ 0) (tight : ¬ ptr.room > 5) :
    ¬ Inbounds (returned (setPrefixAndMsgid len id (some ptr) m)) := by
  rintro ⟨inside, -⟩
  rw [setPrefixAndMsgid_copies len id ptr m nonzero tight] at inside
  have positive : len.toNat ≠ 0 := fun zero => nonzero (UInt32.toNat_inj.mp zero)
  have written := inside ⟨m.next, 5, len.toNat⟩ (by simp [returned]) (len.toNat + 4)
    (by simp only; omega) (by simp only; omega)
  simp only [returned, Memory.store_size, Memory.free_size, Memory.memcpy_size,
    Memory.malloc_size, if_true, UInt32.toNat_add, show lenPrefix.toNat = 4 from rfl] at written
  have wrapped := Nat.mod_le (len.toNat + 4) (2 ^ 32)
  omega

theorem generateFixedMessage_overrun (id : UInt8) (payload : Bytes) (m : Memory)
    (short : payload.length < 2 ^ 32 - 5) :
    ¬ Inbounds (returned (generateFixedMessage id payload m)) := by
  have count : (UInt32.ofNat payload.length).toNat = payload.length := by
    rw [UInt32.toNat_ofNat']
    exact Nat.mod_eq_of_lt (by omega)
  have nonzero : msgIdLen + UInt32.ofNat payload.length ≠ 0 := by
    intro zero
    have value := congrArg UInt32.toNat zero
    rw [UInt32.toNat_add, count, show msgIdLen.toNat = 1 from rfl,
      Nat.mod_eq_of_lt (by omega)] at value
    simp at value
  have tight : ¬ (bStringAllocReserved ⟨m.next, 0⟩ (UInt32.ofNat payload.length)
      (lenPrefix + msgIdLen)).room > 5 := by
    simp [bStringAllocReserved, BString.room, show (lenPrefix + msgIdLen).toNat = 5 from rfl]
  exact setPrefixAndMsgid_overrun _ _ _ _ nonzero tight

theorem generateBitfieldMessage_overrun (bitfieldLen : UInt32) (bits : Ptr) (m : Memory) :
    ¬ Inbounds (returned (generateBitfieldMessage bitfieldLen bits m)) := by
  by_cases nonzero : msgIdLen + bitfieldLen = 0
  · -- The length wraps to zero, and the block of four bytes takes the whole bitfield.
    have value := congrArg UInt32.toNat nonzero
    rw [UInt32.toNat_add, show msgIdLen.toNat = 1 from rfl] at value
    have bound := UInt32.toNat_lt bitfieldLen
    have all : bitfieldLen.toNat = 2 ^ 32 - 1 := by
      simp at value
      omega
    have small : (lenPrefix + msgIdLen + bitfieldLen).toNat = 4 := by
      rw [UInt32.toNat_add, all]
      rfl
    rintro ⟨inside, -⟩
    have roomy : (bStringAllocReserved ⟨m.next, 0⟩ bitfieldLen (lenPrefix + msgIdLen)).room > 4 := by
      simp [bStringAllocReserved, BString.room, show (lenPrefix + msgIdLen).toNat = 5 from rfl]
    simp only [generateBitfieldMessage, nonzero, Memory.malloc_ptr] at inside
    rw [setPrefixAndMsgid_wrapped _ _ _ roomy] at inside
    have written := inside ⟨m.next, 5, bitfieldLen.toNat⟩
      (by simp [returned, bStringAllocReserved, Ptr.add,
        show (lenPrefix + msgIdLen).toNat = 5 from rfl]) 5 (Nat.le_refl _) (by simp only; omega)
    simp [returned, Memory.malloc_size, small] at written
  · have tight : ¬ (bStringAllocReserved ⟨m.next, 0⟩ bitfieldLen
        (lenPrefix + msgIdLen)).room > 5 := by
      simp [bStringAllocReserved, BString.room, show (lenPrefix + msgIdLen).toNat = 5 from rfl]
    exact setPrefixAndMsgid_overrun _ _ _ _ nonzero tight

theorem setPrefixAndMsgid_bare_inside (id : UInt8) (m : Memory) :
    Inbounds (returned (setPrefixAndMsgid msgIdLen id none { m with accesses := [] })) := by
  have size : (msgIdLen + lenPrefix).toNat = 5 := rfl
  refine ⟨?_, ?_⟩
  · intro a member i _ high
    simp [returned, setPrefixAndMsgid, prefixBuffer, bStringAllocReserved, msgIdLen] at member
    rcases member with rfl | rfl <;>
      simp [returned, setPrefixAndMsgid, prefixBuffer, Memory.malloc_size, msgIdLen, lenPrefix,
        htonl] at high ⊢ <;> omega
  · intro s made
    simp only [returned, Option.some.injEq] at made
    subst made
    refine ⟨rfl, Nat.le_refl _, ?_⟩
    simp [returned, setPrefixAndMsgid, prefixBuffer, bStringAllocReserved, Memory.malloc_size,
      msgIdLen, lenPrefix]

theorem generateHandshakeMessage_inside (infoHash peerId : Ptr) (m : Memory)
    (admissible : (Call.handshake infoHash peerId).Admissible m) :
    Inbounds (generateHandshakeMessage (some infoHash) (some peerId)
      { m with accesses := [] }) := by
  obtain ⟨owned, hashFits, peerOwned, peerFits⟩ := admissible
  refine ⟨?_, ?_⟩
  · intro a member i low high
    simp only [generateHandshakeMessage, Memory.memset, Memory.memcpy_accesses,
      Memory.store_accesses, Memory.malloc_accesses, Memory.malloc_ptr, List.nil_append,
      List.mem_cons, List.not_mem_nil, or_false, List.cons_append] at member
    simp only [generateHandshakeMessage, Memory.memset, Memory.memcpy_size, Memory.store_size,
      Memory.malloc_size, Memory.malloc_ptr]
    rcases member with rfl | rfl | rfl | rfl | rfl | rfl | rfl | rfl
    case inr.inr.inr.inr.inl =>
      rw [if_neg (Nat.ne_of_lt owned)]
      exact Nat.lt_of_lt_of_le high hashFits
    case inr.inr.inr.inr.inr.inr.inl =>
      rw [if_neg (Nat.ne_of_lt peerOwned)]
      exact Nat.lt_of_lt_of_le high peerFits
    all_goals
      simp [hashLen, peerIdLen, handshakeMessageLen, defaultPstrlen, reservedLen, defaultPstr]
        at high ⊢
      omega
  · intro s made
    simp only [generateHandshakeMessage, Option.some.injEq] at made
    subst made
    refine ⟨rfl, Nat.le_refl _, ?_⟩
    simp [generateHandshakeMessage, Memory.memset, Memory.malloc_size, handshakeMessageLen]

theorem slice_wraps_iff (sliceLen : UInt32) :
    sliceLen + msgIdLen + 8 = 0 ↔ sliceLen = 4294967287 := by
  rw [← UInt32.toNat_inj, ← UInt32.toNat_inj, UInt32.toNat_add, UInt32.toNat_add,
    show msgIdLen.toNat = 1 from rfl, show (8 : UInt32).toNat = 8 from rfl]
  have bound := UInt32.toNat_lt sliceLen
  simp
  omega

theorem generatePieceMessage_inside_iff (pieceIndex begin sliceLen : UInt32) (ptr : BString)
    (m : Memory) (admissible : (Call.piece pieceIndex begin sliceLen ptr).Admissible m) :
    Inbounds (generatePieceMessage pieceIndex begin sliceLen ptr { m with accesses := [] }) ↔
      13 < ptr.room ∨ sliceLen = 4294967287 := by
  obtain ⟨start, same, owned, len, room, size⟩ := admissible
  have offset : ptr.room = ptr.data.offset := by simp [BString.room, start]
  have front : 13 ≤ ptr.data.offset := by omega
  have enough : ¬ ptr.room < ((8 + msgIdLen + lenPrefix).toNat : Int) := by
    rw [show (8 + msgIdLen + lenPrefix).toNat = 13 from rfl]
    omega
  have moved (n : UInt32) : ({ ptr with data := ptr.data.sub 8, len := n } : BString).room =
      ptr.room - 8 := by
    simp [BString.room, start]
    omega
  rw [← slice_wraps_iff]
  simp only [generatePieceMessage, if_neg enough]
  by_cases wraps : sliceLen + msgIdLen + 8 = 0
  · rw [wraps, setPrefixAndMsgid_wrapped _ _ _ (by rw [moved]; omega)]
    refine ⟨fun _ => .inr rfl, fun _ => ⟨?_, ?_⟩⟩
    · intro a member i low high
      simp at member
      rcases member with rfl | rfl | rfl <;> simp [same, size] at low high ⊢ <;> omega
    · intro s made
      simp only [Option.some.injEq] at made
      subst made
      refine ⟨same, by simp [start], ?_⟩
      simp [size, show lenPrefix.toNat = 4 from rfl]
      omega
  · by_cases roomy : 13 < ptr.room
    · rw [setPrefixAndMsgid_in_place _ _ _ _ wraps (by rw [moved]; omega)]
      refine ⟨fun _ => .inl roomy, fun _ => ⟨?_, ?_⟩⟩
      · intro a member i low high
        simp at member
        rcases member with rfl | rfl | rfl | rfl <;> simp [same, size] at low high ⊢ <;> omega
      · intro s made
        simp only [Option.some.injEq] at made
        subst made
        have total : (sliceLen + msgIdLen + 8 + lenPrefix).toNat ≤ sliceLen.toNat + 13 := by
          simp only [UInt32.toNat_add, show msgIdLen.toNat = 1 from rfl,
            show lenPrefix.toNat = 4 from rfl, show (8 : UInt32).toNat = 8 from rfl]
          omega
        refine ⟨same, by simp [start], ?_⟩
        simp only [Memory.store_size, size, Ptr.sub_offset]
        omega
    · have overrun := setPrefixAndMsgid_overrun (sliceLen + msgIdLen + 8) peerMessagePiece
        { ptr with data := ptr.data.sub 8, len := ptr.len + 8 }
        (({ m with accesses := [] }.store (ptr.data.sub 8) (htonl pieceIndex)).store
          ((ptr.data.sub 8).add 4) (htonl begin)) wraps (by rw [moved]; omega)
      exact ⟨fun inside => (overrun inside).elim, fun either => (either.elim roomy wraps).elim⟩

theorem message_building_inside_iff (m : Memory) (call : Call) (admissible : call.Admissible m) :
    call.StaysInside m ↔ call.Copyless := by
  cases call with
  | handshake infoHash peerId =>
    exact iff_of_true (generateHandshakeMessage_inside infoHash peerId m admissible) trivial
  | keepAlive =>
    refine iff_of_true ⟨?_, ?_⟩ trivial
    · intro a member i _ high
      simp [Call.run, returned, generateKeepAliveMessage, setPrefixAndMsgid, prefixBuffer] at member
      subst member
      simpa [Call.run, returned, generateKeepAliveMessage, setPrefixAndMsgid, prefixBuffer,
        Memory.malloc_size, lenPrefix, htonl] using high
    · intro s made
      simp only [Call.run, returned, Option.some.injEq] at made
      subst made
      refine ⟨rfl, Nat.le_refl _, ?_⟩
      simp [Call.run, returned, generateKeepAliveMessage, setPrefixAndMsgid, prefixBuffer,
        bStringAllocReserved, Memory.malloc_size, lenPrefix]
  | choke => exact iff_of_true (setPrefixAndMsgid_bare_inside _ m) trivial
  | unchoke => exact iff_of_true (setPrefixAndMsgid_bare_inside _ m) trivial
  | interested => exact iff_of_true (setPrefixAndMsgid_bare_inside _ m) trivial
  | notInterested => exact iff_of_true (setPrefixAndMsgid_bare_inside _ m) trivial
  | havePiece pieceIndex =>
    exact iff_of_false (generateFixedMessage_overrun _ _ _ (by simp [htonl])) id
  | bitfield bitfieldLen bits => exact iff_of_false (generateBitfieldMessage_overrun _ _ _) id
  | request pieceIndex begin sliceLen =>
    exact iff_of_false (generateFixedMessage_overrun _ _ _ (by simp [htonl])) id
  | piece pieceIndex begin sliceLen ptr =>
    exact generatePieceMessage_inside_iff pieceIndex begin sliceLen ptr m admissible
  | cancel pieceIndex begin sliceLen =>
    exact iff_of_false (generateFixedMessage_overrun _ _ _ (by simp [htonl])) id
  | port number => exact iff_of_false (generateFixedMessage_overrun _ _ _ (by simp [htons])) id

theorem message_building_inside_iff_piece :
    (Call.piece 1 2 2 ⟨⟨0, 14⟩, ⟨0, 0⟩, 2⟩).StaysInside sampleMemory :=
  (message_building_inside_iff sampleMemory (.piece 1 2 2 ⟨⟨0, 14⟩, ⟨0, 0⟩, 2⟩)
    ⟨rfl, rfl, by decide, rfl, by decide, rfl⟩).mpr (.inl (by decide))

theorem generateHaveMessage_leaves_block : ¬ (Call.havePiece 0).StaysInside sampleMemory :=
  generateFixedMessage_overrun _ _ _ (by simp [htonl])

end BTServer.Peer
