import BTServer.Peer.Stream
import BTServer.Shared.CutStream

set_option autoImplicit false

-- Messages that are sent to several peers, in any order.
namespace BTServer.Peer

open Blocks PrefixCode

def INT_MAX : Nat := 2 ^ 31 - 1

-- The answers of `send`, by the number of calls made before, the descriptor and the length: how
-- much was taken, or the `errno` of a call that returns -1. `send_message` stores the answer in an
-- `int`, so that it is -1 only if the call fails.
structure Wire where
  send : Nat → Int → Nat → Except Int Nat
  within : ∀ calls fd len n, send calls fd len = .ok n → n ≤ min len INT_MAX

-- `stream` is what the peer behind a descriptor gets.
structure Connections where
  calls : Nat
  stream : Int → Bytes
  trace : List String

def Connections.initial : Connections := ⟨0, fun _ => [], []⟩

def sendMessage (wire : Wire) (sendFd : Int) (ptr : BString) (m : Memory) (c : Connections) :
    Int × Connections :=
  let answer := wire.send c.calls sendFd ptr.len.toNat
  let c := { c with calls := c.calls + 1 }
  match answer with
  | .error errno =>
    let text := "Send Message error: errno(" ++ toString errno ++ ")\n"
    (-1, { c with trace := c.trace ++ [text] })
  | .ok n =>
    let taken := (ptr.window m).take n
    (0, { c with stream := Function.update c.stream sendFd (c.stream sendFd ++ taken) })

/-- A message is made and sent. There is no result if there is no message. -/
def Sent.send (wire : Wire) (sendFd : Int) (sent : Sent) (c : Connections) :
    Option (Int × Connections) :=
  let made := sent.call.run sent.memory
  made.1.map fun ptr => sendMessage wire sendFd ptr made.2 c

def sendEach (wire : Wire) : List (Int × Sent) → Connections → Option (List Int × Connections)
  | [], c => some ([], c)
  | (fd, sent) :: later, c =>
    (sent.send wire fd c).bind fun (ret, c) =>
      (sendEach wire later c).map fun (rets, c) => (ret :: rets, c)

structure Answer where
  fd : Int
  message : Message
  answer : Except Int Nat

def Answer.ret (a : Answer) : Int :=
  match a.answer with
  | .ok _ => 0
  | .error _ => -1

def Answer.piece? (fd : Int) (a : Answer) : Option (Message × Nat) :=
  match a.answer with
  | .ok n => if a.fd = fd then some (a.message, n) else none
  | .error _ => none

def Sent.answer (wire : Wire) (calls : Nat) (fd : Int) (sent : Sent) : Answer :=
  ⟨fd, sent.message, wire.send calls fd sent.message.encode.length⟩

def answers (wire : Wire) : Nat → List (Int × Sent) → List Answer
  | _, [] => []
  | calls, (fd, sent) :: later => sent.answer wire calls fd :: answers wire (calls + 1) later

def pieces (wire : Wire) (calls : Nat) (sends : List (Int × Sent)) (fd : Int) :
    List (Message × Nat) :=
  (answers wire calls sends).filterMap (Answer.piece? fd)

theorem Sent.send_eq (wire : Wire) (fd : Int) (sent : Sent) (c : Connections) :
    ∃ c', sent.send wire fd c = some ((sent.answer wire c.calls fd).ret, c') ∧
      c'.calls = c.calls + 1 ∧ ∀ fd', c'.stream fd' =
        c.stream fd' ++ cut Message.encode ((sent.answer wire c.calls fd).piece? fd').toList := by
  obtain ⟨s, made, window⟩ := Call.run_window sent.memory sent.call sent.message sent.makes
  have length : s.len.toNat = sent.message.encode.length := by
    rw [← window, BString.window, Memory.load_length]
  have run : sent.send wire fd c =
      some (sendMessage wire fd s (sent.call.run sent.memory).2 c) := by
    simp only [Sent.send, made, Option.map_some]
  rw [run, sendMessage, length, window, Sent.answer]
  cases answered : wire.send c.calls fd sent.message.encode.length with
  | error errno =>
    refine ⟨_, rfl, rfl, fun fd' => ?_⟩
    simp [Answer.piece?]
  | ok n =>
    refine ⟨_, rfl, rfl, fun fd' => ?_⟩
    by_cases same : fd = fd'
    next =>
      subst same
      simp [Answer.piece?]
    next => simp [Answer.piece?, same, Function.update_of_ne (Ne.symm same)]

theorem sendEach_eq (wire : Wire) (sends : List (Int × Sent)) (c : Connections) :
    ∃ c', sendEach wire sends c = some ((answers wire c.calls sends).map Answer.ret, c') ∧
      ∀ fd, c'.stream fd =
        c.stream fd ++ cut Message.encode (pieces wire c.calls sends fd) := by
  induction sends generalizing c with
  | nil => exact ⟨c, rfl, fun fd => by simp [pieces, answers]⟩
  | cons s later ih =>
    obtain ⟨fd, sent⟩ := s
    obtain ⟨c₁, first, calls, stream⟩ := sent.send_eq wire fd c
    obtain ⟨c₂, others, streams⟩ := ih c₁
    rw [calls] at others streams
    refine ⟨c₂, ?_, fun fd' => ?_⟩
    next =>
      rw [sendEach, first, Option.bind_some]
      dsimp only
      rw [others]
      rfl
    next =>
      rw [streams, stream, List.append_assoc, ← cut_append, pieces, pieces, answers,
        List.filterMap_cons]
      cases (sent.answer wire c.calls fd).piece? fd' <;> rfl

structure Received (pieces : List (Message × Nat)) (messages : List Message) : Prop where
  exact : messages = pieces.map Prod.fst ↔ ∀ p ∈ pieces, isWhole Message.encode p = true
  intact : (pieces.takeWhile (isWhole Message.encode)).map Prod.fst <+: messages

theorem send_message_streams (wire : Wire) (sends : List (Int × Sent)) :
    ∃ c, sendEach wire sends .initial = some ((answers wire 0 sends).map Answer.ret, c) ∧
      ∀ fd, c.stream fd = cut Message.encode (pieces wire 0 sends fd) ∧
        ∀ messages, c.stream fd = messages.flatMap Message.encode →
          Received (pieces wire 0 sends fd) messages := by
  obtain ⟨c, run, streams⟩ := sendEach_eq wire sends .initial
  refine ⟨c, run, fun fd => ⟨streams fd, fun messages decoded => ?_⟩⟩
  rw [streams fd] at decoded
  exact ⟨Message.encode_separated.decoded_iff Message.encode_ne_nil decoded,
    Message.encode_separated.decoded_intact Message.encode_ne_nil decoded⟩

-- Of every message one byte is taken: four keep-alive messages arrive as a single one.
def Wire.narrow : Wire where
  send _ _ len := .ok (min 1 len)
  within := by
    intro calls fd len n taken
    cases taken
    exact Nat.le_min.mpr ⟨Nat.min_le_right 1 len, (Nat.min_le_left 1 len).trans (by decide)⟩

def keepAliveSent : Sent := ⟨sampleMemory, .keepAlive, .keepAlive, trivial⟩

theorem four_keep_alives_merge : ∃ c,
    sendEach .narrow (List.replicate 4 (3, keepAliveSent)) .initial = some ([0, 0, 0, 0], c) ∧
      c.stream 3 = [Message.keepAlive].flatMap Message.encode ∧
      ∃ p ∈ pieces .narrow 0 (List.replicate 4 (3, keepAliveSent)) 3,
        isWhole Message.encode p = false := by
  obtain ⟨c, run, streams⟩ := send_message_streams .narrow (List.replicate 4 (3, keepAliveSent))
  have stream : c.stream 3 = [Message.keepAlive].flatMap Message.encode := by
    rw [(streams 3).1]
    decide
  refine ⟨c, run, stream, ?_⟩
  have received := (streams 3).2 _ stream
  by_contra none
  have same := received.exact.mpr fun p member => by
    by_contra short
    exact none ⟨p, member, by simpa using short⟩
  exact absurd (congrArg List.length same) (by decide)

end BTServer.Peer
