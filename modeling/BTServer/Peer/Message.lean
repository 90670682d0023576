import BTServer.Shared.Blocks

set_option autoImplicit false

namespace BTServer.Peer

open Blocks

abbrev Bytes := List UInt8

def handshakeMessageLen : Nat := 68
def defaultPstrlen : Nat := 19
def reservedLen : Nat := 8
def hashLen : Nat := 20
def peerIdLen : Nat := 20
def msgIdLen : UInt32 := 1
def lenPrefix : UInt32 := 4

-- "BitTorrent protocol"
def defaultPstr : Bytes :=
  [66, 105, 116, 84, 111, 114, 114, 101, 110, 116, 32, 112, 114, 111, 116, 111, 99, 111, 108]

def peerMessageKeepAlive : UInt8 := 0
def peerMessageChoke : UInt8 := 0
def peerMessageUnchocke : UInt8 := 1
def peerMessageInterested : UInt8 := 2
def peerMessageNotInterested : UInt8 := 3
def peerMessageHave : UInt8 := 4
def peerMessageBitfield : UInt8 := 5
def peerMessageRequest : UInt8 := 6
def peerMessagePiece : UInt8 := 7
def peerMessageCancel : UInt8 := 8
def peerMessagePort : UInt8 := 9

/-- The object representation of `htonl(x)`. -/
def htonl (x : UInt32) : Bytes :=
  [(x >>> 24).toUInt8, (x >>> 16).toUInt8, (x >>> 8).toUInt8, x.toUInt8]

def htons (x : UInt16) : Bytes := [(x >>> 8).toUInt8, x.toUInt8]

@[simp] theorem htonl_length (x : UInt32) : (htonl x).length = 4 := rfl
@[simp] theorem htons_length (x : UInt16) : (htons x).length = 2 := rfl

structure BString where
  data : Ptr
  head : Ptr
  len : UInt32

def bStringAllocReserved (buf : Ptr) (len reserved : UInt32) : BString :=
  { len, head := buf, data := buf.add reserved.toNat }

/-- `b_string_get(ptr) - b_string_get_head(ptr)` -/
def BString.room (s : BString) : Int := (s.data.offset : Int) - s.head.offset

def BString.window (s : BString) (m : Memory) : Bytes := m.load s.data s.len.toNat

def generateHandshakeMessage (infoHash peerId : Option Ptr) (m : Memory) :
    Option BString × Memory :=
  match infoHash, peerId with
  | some infoHash, some peerId =>
    let (buf, m) := m.malloc handshakeMessageLen
    let m := m.memset buf 0 handshakeMessageLen
    let m := m.store buf [UInt8.ofNat defaultPstrlen]
    let m := m.store (buf.add 1) defaultPstr
    let m := m.memset (buf.add (1 + defaultPstrlen)) 0 reservedLen
    let m := m.memcpy (buf.add (1 + defaultPstrlen + reservedLen)) infoHash hashLen
    let m := m.memcpy (buf.add (1 + defaultPstrlen + reservedLen + hashLen)) peerId peerIdLen
    (some { data := buf, head := buf, len := UInt32.ofNat handshakeMessageLen }, m)
  | _, _ => (none, m)

-- The buffer that takes the prefix and the id: in place when the head room is larger than both,
-- in a new block otherwise. The copy into the new block takes `len` bytes of the payload.
def prefixBuffer (len idLen : UInt32) (payload : Option BString) (m : Memory) :
    BString × Ptr × Memory :=
  match payload with
  | some ptr =>
    if ptr.room > ((lenPrefix + idLen).toNat : Int) then
      (ptr, ptr.data.sub (lenPrefix + idLen).toNat, m)
    else
      let (buf, m) := m.malloc (len + lenPrefix).toNat
      let m := m.memcpy (buf.add (lenPrefix + idLen).toNat) ptr.data len.toNat
      let m := m.free ptr.head
      ({ ptr with head := buf, data := buf.add (lenPrefix + idLen).toNat }, buf, m)
  | none =>
    let (buf, m) := m.malloc (len + lenPrefix).toNat
    (bStringAllocReserved buf (len + lenPrefix) 0, buf, m)

def setPrefixAndMsgid (len : UInt32) (messageId : UInt8) (payload : Option BString)
    (m : Memory) : BString × Memory :=
  let idLen := if len = 0 then 0 else msgIdLen
  let (ptr, buf, m) := prefixBuffer len idLen payload m
  let m := m.store buf (htonl len)
  let m := if len = 0 then m else m.store (buf.add lenPrefix.toNat) [messageId]
  ({ ptr with data := buf, len := len + lenPrefix }, m)

def generateKeepAliveMessage (m : Memory) : BString × Memory :=
  setPrefixAndMsgid 0 peerMessageKeepAlive none m

def generateChokeMessage (m : Memory) : BString × Memory :=
  setPrefixAndMsgid msgIdLen peerMessageChoke none m

def generateUnchokeMessage (m : Memory) : BString × Memory :=
  setPrefixAndMsgid msgIdLen peerMessageUnchocke none m

def generateInterestedMessage (m : Memory) : BString × Memory :=
  setPrefixAndMsgid msgIdLen peerMessageInterested none m

def generateNotInterestedMessage (m : Memory) : BString × Memory :=
  setPrefixAndMsgid msgIdLen peerMessageNotInterested none m

-- Shared by the generators that build their payload from local variables.
def generateFixedMessage (messageId : UInt8) (payload : Bytes) (m : Memory) : BString × Memory :=
  let count := UInt32.ofNat payload.length
  let (buf, m) := m.malloc (lenPrefix + msgIdLen + count).toNat
  let ptr := bStringAllocReserved buf count (lenPrefix + msgIdLen)
  let m := m.store ptr.data payload
  setPrefixAndMsgid (msgIdLen + count) messageId (some ptr) m

def generateHaveMessage (pieceIndex : UInt32) (m : Memory) : BString × Memory :=
  generateFixedMessage peerMessageHave (htonl pieceIndex) m

def generateBitfieldMessage (bitfieldLen : UInt32) (bitfield : Ptr) (m : Memory) :
    BString × Memory :=
  let (buf, m) := m.malloc (lenPrefix + msgIdLen + bitfieldLen).toNat
  let ptr := bStringAllocReserved buf bitfieldLen (lenPrefix + msgIdLen)
  let m := m.memcpy ptr.data bitfield bitfieldLen.toNat
  setPrefixAndMsgid (msgIdLen + bitfieldLen) peerMessageBitfield (some ptr) m

def generateRequestMessage (pieceIndex begin sliceLen : UInt32) (m : Memory) :
    BString × Memory :=
  generateFixedMessage peerMessageRequest (htonl pieceIndex ++ htonl begin ++ htonl sliceLen) m

/-- Returns `NULL` when fewer than 13 bytes are reserved in front of the slice. -/
def generatePieceMessage (pieceIndex begin sliceLen : UInt32) (ptr : BString) (m : Memory) :
    Option BString × Memory :=
  if ptr.room < ((8 + msgIdLen + lenPrefix).toNat : Int) then
    (none, m.free ptr.head)
  else
    let buf := ptr.data.sub 8
    let m := m.store buf (htonl pieceIndex)
    let m := m.store (buf.add 4) (htonl begin)
    let ptr := { ptr with data := buf, len := ptr.len + 8 }
    let (ptr, m) := setPrefixAndMsgid (sliceLen + msgIdLen + 8) peerMessagePiece (some ptr) m
    (some ptr, m)

def generateCancelMessage (pieceIndex begin sliceLen : UInt32) (m : Memory) :
    BString × Memory :=
  generateFixedMessage peerMessageCancel (htonl pieceIndex ++ htonl begin ++ htonl sliceLen) m

def generatePortMessage (port : UInt16) (m : Memory) : BString × Memory :=
  generateFixedMessage peerMessagePort (htons port) m

inductive Call where
  | handshake (infoHash peerId : Ptr)
  | keepAlive
  | choke
  | unchoke
  | interested
  | notInterested
  | havePiece (pieceIndex : UInt32)
  | bitfield (bitfieldLen : UInt32) (bits : Ptr)
  | request (pieceIndex begin sliceLen : UInt32)
  | piece (pieceIndex begin sliceLen : UInt32) (ptr : BString)
  | cancel (pieceIndex begin sliceLen : UInt32)
  | port (number : UInt16)

def returned (result : BString × Memory) : Option BString × Memory := (some result.1, result.2)

def Call.run (m : Memory) : Call → Option BString × Memory
  | .handshake infoHash peerId => generateHandshakeMessage (some infoHash) (some peerId) m
  | .keepAlive => returned (generateKeepAliveMessage m)
  | .choke => returned (generateChokeMessage m)
  | .unchoke => returned (generateUnchokeMessage m)
  | .interested => returned (generateInterestedMessage m)
  | .notInterested => returned (generateNotInterestedMessage m)
  | .havePiece pieceIndex => returned (generateHaveMessage pieceIndex m)
  | .bitfield bitfieldLen bits => returned (generateBitfieldMessage bitfieldLen bits m)
  | .request pieceIndex begin sliceLen =>
      returned (generateRequestMessage pieceIndex begin sliceLen m)
  | .piece pieceIndex begin sliceLen ptr => generatePieceMessage pieceIndex begin sliceLen ptr m
  | .cancel pieceIndex begin sliceLen =>
      returned (generateCancelMessage pieceIndex begin sliceLen m)
  | .port number => returned (generatePortMessage number m)

-- One block of 16 bytes, each holding its own offset.
def sampleMemory : Memory :=
  { blocks := fun _ => ⟨16, fun i => UInt8.ofNat i⟩, next := 1, accesses := [], freed := [] }

end BTServer.Peer
