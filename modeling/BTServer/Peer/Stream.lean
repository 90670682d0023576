import BTServer.Peer.WireFormat
import BTServer.Shared.PrefixCode

set_option autoImplicit false

namespace BTServer.Peer

open Blocks PrefixCode

structure Sent where
  memory : Memory
  call : Call
  message : Message
  makes : call.Makes memory message

def Sent.window (sent : Sent) : Bytes :=
  match (sent.call.run sent.memory).1 with
  | some s => s.window (sent.call.run sent.memory).2
  | none => []

theorem Sent.window_eq (sent : Sent) : sent.window = sent.message.encode := by
  obtain ⟨s, made, window⟩ := Call.run_window sent.memory sent.call sent.message sent.makes
  simp [Sent.window, made, window]

theorem frame_append_inj (id other : UInt8) (payload bits rest tail : Bytes)
    (small : 1 + payload.length < 2 ^ 32) (fits : 1 + bits.length < 2 ^ 32)
    (same : frame id payload ++ rest = frame other bits ++ tail) :
    id = other ∧ payload = bits := by
  simp only [frame, List.append_assoc] at same
  obtain ⟨lengths, same⟩ := List.append_inj same (by simp)
  have count : payload.length = bits.length := by
    have := be32_injective _ _ small fits lengths
    omega
  obtain ⟨ids, same⟩ := List.append_inj same (by simp)
  exact ⟨by simpa using ids, (List.append_inj same count).1⟩

def Message.framed : Message → Option (UInt8 × Bytes)
  | .handshake _ _ => none
  | .keepAlive => none
  | .choke => some (0, [])
  | .unchoke => some (1, [])
  | .interested => some (2, [])
  | .notInterested => some (3, [])
  | .havePiece pieceIndex => some (4, be32 pieceIndex.toNat)
  | .bitfield bits => some (5, bits.val)
  | .request pieceIndex begin sliceLen =>
      some (6, be32 pieceIndex.toNat ++ be32 begin.toNat ++ be32 sliceLen.toNat)
  | .piece pieceIndex begin slice =>
      some (7, be32 pieceIndex.toNat ++ be32 begin.toNat ++ slice.val)
  | .cancel pieceIndex begin sliceLen =>
      some (8, be32 pieceIndex.toNat ++ be32 begin.toNat ++ be32 sliceLen.toNat)
  | .port number => some (9, be16 number.toNat)

theorem Message.framed_encode (message : Message) (id : UInt8) (payload : Bytes)
    (framed : message.framed = some (id, payload)) :
    message.encode = frame id payload ∧ 1 + payload.length < 2 ^ 32 ∧ id < 10 := by
  cases message <;> simp only [Message.framed, reduceCtorEq, Option.some.injEq, Prod.mk.injEq]
    at framed
  case bitfield bits =>
    obtain ⟨rfl, rfl⟩ := framed
    exact ⟨rfl, by have := bits.property; omega, by decide⟩
  case piece pieceIndex begin slice =>
    obtain ⟨rfl, rfl⟩ := framed
    refine ⟨rfl, ?_, by decide⟩
    have := slice.property
    simp only [List.length_append, be32_length]
    omega
  all_goals
    obtain ⟨rfl, rfl⟩ := framed
    exact ⟨rfl, by simp [be16], by decide⟩

theorem be32_toNat_injective (x y : UInt32) (same : be32 x.toNat = be32 y.toNat) : x = y :=
  UInt32.toNat_inj.mp (be32_injective _ _ (UInt32.toNat_lt x) (UInt32.toNat_lt y) same)

theorem be16_toNat_injective (x y : UInt16) (same : be16 x.toNat = be16 y.toNat) : x = y := by
  simp only [be16, List.cons.injEq, and_true, ← UInt8.toNat_inj, UInt8.toNat_ofNat'] at same
  have small := UInt16.toNat_lt x
  have other := UInt16.toNat_lt y
  exact UInt16.toNat_inj.mp (by omega)

theorem Message.framed_injective (a b : Message) (id : UInt8) (payload : Bytes)
    (left : a.framed = some (id, payload)) (right : b.framed = some (id, payload)) : a = b := by
  have words (i j k x y z : UInt32)
      (same : be32 i.toNat ++ be32 j.toNat ++ be32 k.toNat =
        be32 x.toNat ++ be32 y.toNat ++ be32 z.toNat) : i = x ∧ j = y ∧ k = z := by
    obtain ⟨front, last⟩ := List.append_inj same (by simp)
    obtain ⟨first, second⟩ := List.append_inj front (by simp)
    exact ⟨be32_toNat_injective _ _ first, be32_toNat_injective _ _ second,
      be32_toNat_injective _ _ last⟩
  rw [← right] at left
  cases a <;> cases b <;>
    simp only [Message.framed, reduceCtorEq, Option.some.injEq, Prod.mk.injEq] at left right
  case havePiece.havePiece i x => rw [be32_toNat_injective _ _ left.2]
  case bitfield.bitfield bits field => rw [Subtype.ext left.2]
  case request.request i j k x y z =>
    obtain ⟨rfl, rfl, rfl⟩ := words _ _ _ _ _ _ left.2
    rfl
  case cancel.cancel i j k x y z =>
    obtain ⟨rfl, rfl, rfl⟩ := words _ _ _ _ _ _ left.2
    rfl
  case piece.piece i j slice x y tail =>
    obtain ⟨front, last⟩ := List.append_inj left.2 (by simp)
    obtain ⟨first, second⟩ := List.append_inj front (by simp)
    rw [be32_toNat_injective _ _ first, be32_toNat_injective _ _ second, Subtype.ext last]
  case port.port n k => rw [be16_toNat_injective _ _ left.2]
  all_goals first
    | rfl
    | exact absurd left.1 (by decide)

theorem Message.encode_separated : Separated Message.encode := by
  -- The fifth byte of a handshake is a letter, that of every other long message an id below ten.
  have letter (hash : Sized hashLen) (peer : Sized peerIdLen) (message : Message)
      (id : UInt8) (payload rest other : Bytes) (framed : message.framed = some (id, payload)) :
      (Message.handshake hash peer).encode ++ rest ≠ message.encode ++ other := by
    intro same
    obtain ⟨encoded, -, small⟩ := message.framed_encode id payload framed
    rw [encoded] at same
    have fifth := congrArg (fun bytes : Bytes => bytes[4]?) same
    simp [Message.encode, frame, be32, defaultPstr] at fifth
    subst fifth
    exact absurd small (by decide)
  have empty (message : Message) (id : UInt8) (payload rest other : Bytes)
      (framed : message.framed = some (id, payload)) :
      Message.keepAlive.encode ++ rest ≠ message.encode ++ other := by
    intro same
    obtain ⟨encoded, small, -⟩ := message.framed_encode id payload framed
    rw [encoded] at same
    simp only [Message.encode, frame, List.append_assoc] at same
    have lengths := be32_injective 0 _ (by decide) small (List.append_inj same (by simp)).1
    omega
  intro a b rest other same
  cases left : a.framed with
  | some framed =>
    obtain ⟨encoded, small, -⟩ := a.framed_encode framed.1 framed.2 left
    cases right : b.framed with
    | some marked =>
      obtain ⟨coded, fits, -⟩ := b.framed_encode marked.1 marked.2 right
      rw [encoded, coded] at same
      obtain ⟨ids, payloads⟩ := frame_append_inj _ _ _ _ _ _ small fits same
      exact a.framed_injective b framed.1 framed.2 left (by rw [right, ids, payloads])
    | none =>
      cases b <;> simp only [Message.framed, reduceCtorEq] at right
      case handshake hash peer => exact absurd same.symm (letter hash peer a _ _ _ _ left)
      case keepAlive => exact absurd same.symm (empty a _ _ _ _ left)
  | none =>
    cases right : b.framed with
    | some marked =>
      cases a <;> simp only [Message.framed, reduceCtorEq] at left
      case handshake hash peer => exact absurd same (letter hash peer b _ _ _ _ right)
      case keepAlive => exact absurd same (empty b _ _ _ _ right)
    | none =>
      cases a <;> cases b <;> simp only [Message.framed, reduceCtorEq] at left right
      case handshake.handshake hash peer hash' peer' =>
        simp only [Message.encode, List.append_assoc, List.append_cancel_left_eq] at same
        obtain ⟨hashes, same⟩ := List.append_inj same (by rw [hash.property, hash'.property])
        have peers := (List.append_inj same (by rw [peer.property, peer'.property])).1
        rw [Subtype.ext hashes, Subtype.ext peers]
      case keepAlive.keepAlive => rfl
      all_goals
        have first := congrArg (fun bytes : Bytes => bytes[0]?) same
        simp [Message.encode, be32] at first

theorem Message.encode_ne_nil (message : Message) : message.encode ≠ [] := by
  cases message <;> simp [Message.encode, frame, be32]

theorem peer_stream_decodable :
    (∀ xs ys : List Sent, xs.flatMap Sent.window = ys.flatMap Sent.window →
        xs.map Sent.message = ys.map Sent.message) ∧
      ∀ a b : Sent, a.window <+: b.window → a.message = b.message := by
  have window : Sent.window = Message.encode ∘ Sent.message := funext Sent.window_eq
  constructor
  · intro xs ys same
    rw [window] at same
    apply Message.encode_separated.flatMap_injective Message.encode_ne_nil
    simpa [List.flatMap_map, Function.comp_def] using same
  · intro a b initial
    rw [Sent.window_eq, Sent.window_eq] at initial
    exact Message.encode_separated.eq_of_prefix initial

end BTServer.Peer
