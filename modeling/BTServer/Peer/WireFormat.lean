import BTServer.Peer.Message
import Mathlib.Tactic.Ring

set_option autoImplicit false

namespace BTServer.Peer

open Blocks

def be32 (n : Nat) : Bytes :=
  [UInt8.ofNat (n / 2 ^ 24), UInt8.ofNat (n / 2 ^ 16), UInt8.ofNat (n / 2 ^ 8), UInt8.ofNat n]

def be16 (n : Nat) : Bytes := [UInt8.ofNat (n / 2 ^ 8), UInt8.ofNat n]

@[simp] theorem be32_length (n : Nat) : (be32 n).length = 4 := rfl

theorem htonl_eq_be32 (x : UInt32) : htonl x = be32 x.toNat := by
  simp only [htonl, be32, List.cons.injEq, and_true, ← UInt8.toNat_inj]
  refine ⟨?_, ?_, ?_, ?_⟩ <;> simp [Nat.shiftRight_eq_div_pow]

theorem htons_eq_be16 (x : UInt16) : htons x = be16 x.toNat := by
  simp only [htons, be16, List.cons.injEq, and_true, ← UInt8.toNat_inj]
  refine ⟨?_, ?_⟩ <;> simp [Nat.shiftRight_eq_div_pow]

theorem be32_injective (a b : Nat) (small : a < 2 ^ 32) (other : b < 2 ^ 32)
    (same : be32 a = be32 b) : a = b := by
  simp only [be32, List.cons.injEq, and_true, ← UInt8.toNat_inj, UInt8.toNat_ofNat'] at same
  omega

abbrev Sized (count : Nat) := { bytes : Bytes // bytes.length = count }

abbrev Fitting (overhead : Nat) := { bytes : Bytes // overhead + bytes.length < 2 ^ 32 }

inductive Message where
  | handshake (infoHash : Sized hashLen) (peerId : Sized peerIdLen)
  | keepAlive
  | choke
  | unchoke
  | interested
  | notInterested
  | havePiece (pieceIndex : UInt32)
  | bitfield (bits : Fitting 5)
  | request (pieceIndex begin sliceLen : UInt32)
  | piece (pieceIndex begin : UInt32) (slice : Fitting 13)
  | cancel (pieceIndex begin sliceLen : UInt32)
  | port (number : UInt16)

def frame (id : UInt8) (payload : Bytes) : Bytes := be32 (1 + payload.length) ++ [id] ++ payload

def Message.encode : Message → Bytes
  | .handshake infoHash peerId =>
      [19] ++ defaultPstr ++ List.replicate 8 0 ++ infoHash.val ++ peerId.val
  | .keepAlive => be32 0
  | .choke => frame 0 []
  | .unchoke => frame 1 []
  | .interested => frame 2 []
  | .notInterested => frame 3 []
  | .havePiece pieceIndex => frame 4 (be32 pieceIndex.toNat)
  | .bitfield bits => frame 5 bits.val
  | .request pieceIndex begin sliceLen =>
      frame 6 (be32 pieceIndex.toNat ++ be32 begin.toNat ++ be32 sliceLen.toNat)
  | .piece pieceIndex begin slice =>
      frame 7 (be32 pieceIndex.toNat ++ be32 begin.toNat ++ slice.val)
  | .cancel pieceIndex begin sliceLen =>
      frame 8 (be32 pieceIndex.toNat ++ be32 begin.toNat ++ be32 sliceLen.toNat)
  | .port number => frame 9 (be16 number.toNat)

-- What a call asks for in a given memory. The arguments of a piece are a string of the slice's
-- length with at least 13 bytes reserved in front of its data.
def Call.Makes (m : Memory) : Call → Message → Prop
  | .handshake infoHash peerId, .handshake hash peer =>
      infoHash.block < m.next ∧ peerId.block < m.next ∧
        m.load infoHash hashLen = hash.val ∧ m.load peerId peerIdLen = peer.val
  | .keepAlive, .keepAlive => True
  | .choke, .choke => True
  | .unchoke, .unchoke => True
  | .interested, .interested => True
  | .notInterested, .notInterested => True
  | .havePiece pieceIndex, .havePiece index => pieceIndex = index
  | .bitfield bitfieldLen bits, .bitfield field =>
      bits.block < m.next ∧ bitfieldLen.toNat = field.val.length ∧
        m.load bits bitfieldLen.toNat = field.val
  | .request pieceIndex begin sliceLen, .request index offset len =>
      pieceIndex = index ∧ begin = offset ∧ sliceLen = len
  | .piece pieceIndex begin sliceLen ptr, .piece index offset slice =>
      pieceIndex = index ∧ begin = offset ∧ sliceLen.toNat = slice.val.length ∧
        ptr.len = sliceLen ∧ ptr.data.block = ptr.head.block ∧ ptr.head.block < m.next ∧
        13 ≤ ptr.room ∧ m.load ptr.data sliceLen.toNat = slice.val
  | .cancel pieceIndex begin sliceLen, .cancel index offset len =>
      pieceIndex = index ∧ begin = offset ∧ sliceLen = len
  | .port number, .port other => number = other
  | _, _ => False

theorem framed_window (m : Memory) (buf : Ptr) (len : UInt32) (id : UInt8) (count : Nat) :
    ((m.store buf (htonl len)).store (buf.add lenPrefix.toNat) [id]).load buf (5 + count) =
      htonl len ++ [id] ++ m.load (buf.add 5) count := by
  have four : lenPrefix.toNat = 4 := rfl
  have shift : (buf.add 4).add 1 = buf.add 5 := rfl
  have before : ((m.store buf (htonl len)).store (buf.add 4) [id]).load buf 4 = htonl len := by
    rw [Memory.load_store_frame _ _ _ _ _ (fun _ => .inl (by simp))]
    exact Memory.load_store m buf (htonl len)
  have marked := Memory.load_store (m.store buf (htonl len)) (buf.add 4) [id]
  have after : ((m.store buf (htonl len)).store (buf.add 4) [id]).load (buf.add 5) count =
      m.load (buf.add 5) count := by
    rw [Memory.load_store_frame _ _ _ _ _ (fun _ => .inr (by simp)),
      Memory.load_store_frame _ _ _ _ _ (fun _ => .inr (by simp))]
  rw [four, show 5 + count = 4 + (1 + count) by omega, Memory.load_add, Memory.load_add,
    shift, before, after, show (1 : Nat) = [id].length from rfl, marked]
  simp

theorem setPrefixAndMsgid_bare (id : UInt8) (m : Memory) :
    (setPrefixAndMsgid msgIdLen id none m).1.window (setPrefixAndMsgid msgIdLen id none m).2 =
      frame id [] := by
  have window := framed_window (m.malloc 5).2 ⟨m.next, 0⟩ msgIdLen id 0
  rw [htonl_eq_be32] at window
  exact window

theorem setPrefixAndMsgid_payload (len : UInt32) (id : UInt8) (ptr : BString) (m : Memory)
    (positive : len ≠ 0) (fits : len.toNat + 4 < 2 ^ 32) :
    (setPrefixAndMsgid len id (some ptr) m).1.window (setPrefixAndMsgid len id (some ptr) m).2 =
      htonl len ++ [id] ++ m.load ptr.data (len.toNat - 1) := by
  have nonzero : len.toNat ≠ 0 := fun zero => positive (UInt32.toNat_inj.mp zero)
  have total : (len + lenPrefix).toNat = 5 + (len.toNat - 1) := by
    rw [UInt32.toNat_add, show lenPrefix.toNat = 4 from rfl, Nat.mod_eq_of_lt fits]
    omega
  have five : (lenPrefix + msgIdLen).toNat = 5 := rfl
  by_cases inPlace : ptr.room > 5
  · have room : 5 ≤ ptr.data.offset := by
      simp only [BString.room] at inPlace
      omega
    have back : (ptr.data.sub 5).add 5 = ptr.data := by
      rw [Ptr.add_sub_of_le _ _ _ (Nat.le_refl _) room]
      rfl
    have window := framed_window m (ptr.data.sub 5) len id (len.toNat - 1)
    rw [back] at window
    simpa [setPrefixAndMsgid, prefixBuffer, positive, five, inPlace, BString.window, total]
      using window
  · have window := framed_window
      (((m.malloc (len + lenPrefix).toNat).2.memcpy ⟨m.next, 5⟩ ptr.data len.toNat).free
        ptr.head) ⟨m.next, 0⟩ len id (len.toNat - 1)
    have copied : (((m.malloc (len + lenPrefix).toNat).2.memcpy ⟨m.next, 5⟩ ptr.data
        len.toNat).free ptr.head).load ⟨m.next, 5⟩ (len.toNat - 1) =
        m.load ptr.data (len.toNat - 1) := by
      have whole := Memory.load_memcpy (m.malloc (len + lenPrefix).toNat).2 ⟨m.next, 5⟩
        ptr.data len.toNat
      rw [Memory.load_malloc, show len.toNat = (len.toNat - 1) + 1 by omega, Memory.load_add,
        Memory.load_add, ← show len.toNat = (len.toNat - 1) + 1 by omega] at whole
      rw [Memory.load_free]
      exact (List.append_inj whole (by simp)).1
    have offset : (⟨m.next, 0⟩ : Ptr).add 5 = ⟨m.next, 5⟩ := rfl
    rw [offset, copied] at window
    simpa [setPrefixAndMsgid, prefixBuffer, positive, five, inPlace, BString.window, total,
      offset] using window

theorem generateFixedMessage_window (id : UInt8) (payload : Bytes) (m : Memory)
    (fits : 5 + payload.length < 2 ^ 32) :
    (generateFixedMessage id payload m).1.window (generateFixedMessage id payload m).2 =
      frame id payload := by
  have count : (UInt32.ofNat payload.length).toNat = payload.length := by
    rw [UInt32.toNat_ofNat']
    exact Nat.mod_eq_of_lt (by omega)
  have len : (msgIdLen + UInt32.ofNat payload.length).toNat = 1 + payload.length := by
    rw [UInt32.toNat_add, count, show msgIdLen.toNat = 1 from rfl]
    exact Nat.mod_eq_of_lt (by omega)
  have positive : msgIdLen + UInt32.ofNat payload.length ≠ 0 := by
    intro zero
    rw [zero] at len
    simp at len
    omega
  simp only [generateFixedMessage]
  rw [setPrefixAndMsgid_payload _ _ _ _ positive (by rw [len]; omega), htonl_eq_be32, len,
    show 1 + payload.length - 1 = payload.length by omega, Memory.load_store]
  rfl

theorem generateBitfieldMessage_window (bitfieldLen : UInt32) (bits : Ptr) (m : Memory)
    (fits : 5 + bitfieldLen.toNat < 2 ^ 32) :
    (generateBitfieldMessage bitfieldLen bits m).1.window
        (generateBitfieldMessage bitfieldLen bits m).2 =
      frame peerMessageBitfield (m.load bits bitfieldLen.toNat) := by
  have len : (msgIdLen + bitfieldLen).toNat = 1 + bitfieldLen.toNat := by
    rw [UInt32.toNat_add, show msgIdLen.toNat = 1 from rfl]
    exact Nat.mod_eq_of_lt (by omega)
  have positive : msgIdLen + bitfieldLen ≠ 0 := by
    intro zero
    rw [zero] at len
    simp at len
    omega
  simp only [generateBitfieldMessage]
  rw [setPrefixAndMsgid_payload _ _ _ _ positive (by rw [len]; omega), htonl_eq_be32, len,
    show 1 + bitfieldLen.toNat - 1 = bitfieldLen.toNat by omega, Memory.load_memcpy,
    Memory.load_malloc]
  simp [frame]

theorem generatePieceMessage_window (pieceIndex begin sliceLen : UInt32) (ptr : BString)
    (m : Memory) (fits : 13 + sliceLen.toNat < 2 ^ 32) (room : 13 ≤ ptr.room) :
    ∃ s, (generatePieceMessage pieceIndex begin sliceLen ptr m).1 = some s ∧
      s.window (generatePieceMessage pieceIndex begin sliceLen ptr m).2 =
        frame peerMessagePiece (be32 pieceIndex.toNat ++ be32 begin.toNat ++
          m.load ptr.data sliceLen.toNat) := by
  have enough : ¬ ptr.room < ((8 + msgIdLen + lenPrefix).toNat : Int) := by
    have thirteen : (8 + msgIdLen + lenPrefix).toNat = 13 := rfl
    rw [thirteen]
    omega
  have len : (sliceLen + msgIdLen + 8).toNat = 9 + sliceLen.toNat := by
    rw [UInt32.toNat_add, UInt32.toNat_add, show msgIdLen.toNat = 1 from rfl,
      show (8 : UInt32).toNat = 8 from rfl]
    omega
  have positive : sliceLen + msgIdLen + 8 ≠ 0 := by
    intro zero
    rw [zero] at len
    simp at len
    omega
  have front : 13 ≤ ptr.data.offset := by
    simp only [BString.room] at room
    omega
  have middle : (ptr.data.sub 8).add 4 = ptr.data.sub 4 :=
    Ptr.add_sub_of_le _ _ _ (by omega) (by omega)
  have last : (ptr.data.sub 4).add 4 = ptr.data := by
    rw [Ptr.add_sub_of_le _ _ _ (Nat.le_refl _) (by omega)]
    rfl
  have filled : ((m.store (ptr.data.sub 8) (htonl pieceIndex)).store (ptr.data.sub 4)
      (htonl begin)).load (ptr.data.sub 8) (8 + sliceLen.toNat) =
      htonl pieceIndex ++ htonl begin ++ m.load ptr.data sliceLen.toNat := by
    have second := Memory.load_store (m.store (ptr.data.sub 8) (htonl pieceIndex))
      (ptr.data.sub 4) (htonl begin)
    have first := Memory.load_store m (ptr.data.sub 8) (htonl pieceIndex)
    rw [htonl_length] at first second
    rw [show 8 + sliceLen.toNat = 4 + (4 + sliceLen.toNat) by omega, Memory.load_add,
      Memory.load_add, middle, last, second,
      Memory.load_store_frame _ _ (ptr.data.sub 8) _ _ (fun _ => .inl (by simp; omega)), first,
      Memory.load_store_frame _ _ ptr.data _ _ (fun _ => .inr (by simp; omega)),
      Memory.load_store_frame _ _ ptr.data _ _ (fun _ => .inr (by simp; omega))]
    simp
  refine ⟨_, by simp only [generatePieceMessage, if_neg enough]; rfl, ?_⟩
  simp only [generatePieceMessage, if_neg enough, middle]
  rw [setPrefixAndMsgid_payload _ _ _ _ positive (by rw [len]; omega), len,
    show 9 + sliceLen.toNat - 1 = 8 + sliceLen.toNat by omega, filled, htonl_eq_be32,
    htonl_eq_be32, htonl_eq_be32, len]
  simp only [frame, List.length_append, be32_length, Memory.load_length]
  rw [show 1 + (4 + 4 + sliceLen.toNat) = 9 + sliceLen.toNat by omega]

theorem generateHandshakeMessage_window (infoHash peerId : Ptr) (m : Memory)
    (owned : infoHash.block < m.next) (peerOwned : peerId.block < m.next) :
    ∃ s, (generateHandshakeMessage (some infoHash) (some peerId) m).1 = some s ∧
      s.window (generateHandshakeMessage (some infoHash) (some peerId) m).2 =
        [19] ++ defaultPstr ++ List.replicate 8 0 ++ m.load infoHash hashLen ++
          m.load peerId peerIdLen := by
  let buf : Ptr := ⟨m.next, 0⟩
  let m₁ := ((m.malloc handshakeMessageLen).2.memset buf 0 handshakeMessageLen).store buf [19]
  let m₂ := m₁.store (buf.add 1) defaultPstr
  let m₃ := m₂.memset (buf.add 20) 0 8
  let m₄ := m₃.memcpy (buf.add 28) infoHash 20
  have elsewhere (q : Ptr) (count : Nat) (outside : q.block < m.next) :
      m₃.load q count = m.load q count := by
    have other : m.next ≠ q.block := by omega
    simp only [m₃, m₂, m₁, Memory.memset]
    rw [Memory.load_store_other _ (buf.add 20) q _ _ other,
      Memory.load_store_other _ (buf.add 1) q _ _ other,
      Memory.load_store_other _ buf q _ _ other, Memory.load_store_other _ buf q _ _ other,
      Memory.load_malloc]
  have first : m₁.load buf 1 = [19] := Memory.load_store _ buf [19]
  have second : m₂.load buf 20 = [19] ++ defaultPstr := by
    rw [← first]
    exact Memory.load_store_append m₁ buf 1 defaultPstr
  have third : m₃.load buf 28 = [19] ++ defaultPstr ++ List.replicate 8 0 := by
    rw [← second]
    exact Memory.load_store_append m₂ buf 20 (List.replicate 8 0)
  have fourth : m₄.load buf 48 =
      [19] ++ defaultPstr ++ List.replicate 8 0 ++ m.load infoHash 20 := by
    rw [← third, ← elsewhere infoHash 20 owned]
    exact Memory.load_memcpy_append m₃ buf infoHash 28 20
  have peerBytes : m₄.load peerId 20 = m.load peerId 20 := by
    rw [← elsewhere peerId 20 peerOwned]
    apply Memory.load_memcpy_frame
    intro same
    change m.next = peerId.block at same
    omega
  have fifth := Memory.load_memcpy_append m₄ buf peerId 48 20
  rw [fourth, peerBytes] at fifth
  exact ⟨_, rfl, fifth⟩

theorem Call.run_window (m : Memory) (call : Call) (message : Message)
    (makes : call.Makes m message) :
    ∃ s, (call.run m).1 = some s ∧ s.window (call.run m).2 = message.encode := by
  cases call <;> cases message <;> simp only [Call.Makes] at makes
  case handshake.handshake infoHash peerId hash peer =>
    obtain ⟨owned, peerOwned, hashBytes, peerBytes⟩ := makes
    obtain ⟨s, made, window⟩ := generateHandshakeMessage_window infoHash peerId m owned peerOwned
    rw [hashBytes, peerBytes] at window
    exact ⟨s, made, window⟩
  case keepAlive.keepAlive =>
    refine ⟨_, rfl, ?_⟩
    exact Memory.load_store (m.malloc 4).2 ⟨m.next, 0⟩ (htonl 0)
  case choke.choke => exact ⟨_, rfl, setPrefixAndMsgid_bare _ m⟩
  case unchoke.unchoke => exact ⟨_, rfl, setPrefixAndMsgid_bare _ m⟩
  case interested.interested => exact ⟨_, rfl, setPrefixAndMsgid_bare _ m⟩
  case notInterested.notInterested => exact ⟨_, rfl, setPrefixAndMsgid_bare _ m⟩
  case havePiece.havePiece pieceIndex index =>
    subst makes
    refine ⟨_, rfl, ?_⟩
    rw [Message.encode, ← htonl_eq_be32]
    exact generateFixedMessage_window _ _ m (by simp)
  case bitfield.bitfield bitfieldLen bits field =>
    obtain ⟨-, len, loaded⟩ := makes
    refine ⟨_, rfl, ?_⟩
    rw [Message.encode, ← loaded]
    exact generateBitfieldMessage_window bitfieldLen bits m (by rw [len]; exact field.property)
  case request.request pieceIndex begin sliceLen index offset len =>
    obtain ⟨rfl, rfl, rfl⟩ := makes
    refine ⟨_, rfl, ?_⟩
    simp only [Message.encode, ← htonl_eq_be32]
    exact generateFixedMessage_window _ _ m (by simp)
  case piece.piece pieceIndex begin sliceLen ptr index offset slice =>
    obtain ⟨rfl, rfl, len, -, -, -, room, loaded⟩ := makes
    have made := generatePieceMessage_window pieceIndex begin sliceLen ptr m
      (by rw [len]; exact slice.property) room
    rwa [loaded] at made
  case cancel.cancel pieceIndex begin sliceLen index offset len =>
    obtain ⟨rfl, rfl, rfl⟩ := makes
    refine ⟨_, rfl, ?_⟩
    simp only [Message.encode, ← htonl_eq_be32]
    exact generateFixedMessage_window _ _ m (by simp)
  case port.port number other =>
    subst makes
    refine ⟨_, rfl, ?_⟩
    rw [Message.encode, ← htons_eq_be16]
    exact generateFixedMessage_window _ _ m (by simp)

theorem peer_wire_format (m : Memory) (call : Call) (message : Message)
    (makes : call.Makes m message) :
    (∃ s, (call.run m).1 = some s ∧ s.window (call.run m).2 = message.encode) ∧
      ∀ (len : UInt32) (id : UInt8) (near far : BString) (n : Memory), len ≠ 0 →
        len.toNat + 4 < 2 ^ 32 → near.room > 5 → far.room ≤ 5 →
        m.load near.data (len.toNat - 1) = n.load far.data (len.toNat - 1) →
        (setPrefixAndMsgid len id (some near) m).1.window
            (setPrefixAndMsgid len id (some near) m).2 =
          (setPrefixAndMsgid len id (some far) n).1.window
            (setPrefixAndMsgid len id (some far) n).2 := by
  refine ⟨Call.run_window m call message makes, ?_⟩
  intro len id near far n positive fits _ _ same
  rw [setPrefixAndMsgid_payload len id near m positive fits,
    setPrefixAndMsgid_payload len id far n positive fits, same]

theorem peer_wire_format_piece :
    (Message.piece 1 2 ⟨[13, 14], by decide⟩).encode =
        [0, 0, 0, 11, 7, 0, 0, 0, 1, 0, 0, 0, 2, 13, 14] ∧
      ∃ s, ((Call.piece 1 2 2 ⟨⟨0, 13⟩, ⟨0, 0⟩, 2⟩).run sampleMemory).1 = some s ∧
        s.window ((Call.piece 1 2 2 ⟨⟨0, 13⟩, ⟨0, 0⟩, 2⟩).run sampleMemory).2 =
          (Message.piece 1 2 ⟨[13, 14], by decide⟩).encode :=
  ⟨by decide, (peer_wire_format sampleMemory (.piece 1 2 2 ⟨⟨0, 13⟩, ⟨0, 0⟩, 2⟩)
    (.piece 1 2 ⟨[13, 14], by decide⟩)
    ⟨rfl, rfl, rfl, rfl, rfl, by decide, by decide, rfl⟩).1⟩

end BTServer.Peer
