import BTServer.Peer.Message
import BTServer.Timer.Model
import Mathlib.Tactic.Ring

set_option autoImplicit false

namespace BTServer.Peer

open Blocks

structure PeerMgnt where
  rcvKeepAlive : Nat

def dealKeepAlive (ptr : PeerMgnt) (timers : Timer.BtTimerList) : Timer.Outcome :=
  timers.btTimerUpdate ptr.rcvKeepAlive

-- The id byte is read before the length is looked at. Every other case of the `switch` is empty,
-- and so is that of a choke message, which shares its id with the keep-alive message.
def dealMessage (ptr : PeerMgnt) (string : BString) (m : Memory) (timers : Timer.BtTimerList) :
    Memory × Timer.Outcome :=
  let len := string.len - 4
  let type := (m.blocks string.data.block).byte (string.data.offset + 4)
  let m := m.read (string.data.add 4) 1
  if type = peerMessageKeepAlive then
    if len ≠ 0 then (m, .returned timers) else (m, dealKeepAlive ptr timers)
  else (m, .returned timers)

def BString.Covers (s : BString) (a : Access) : Prop :=
  a.block = s.data.block ∧ s.data.offset ≤ a.start ∧
    a.start + a.length ≤ s.data.offset + s.len.toNat

/-- The receiver looks at the string's window only, whatever surrounds it in memory, and restarts
the timer for the keep-alive message alone. -/
structure Dispatched (call : Call) (s : BString) (m : Memory) : Prop where
  reads : ∀ ptr timers, ∀ a ∈ (dealMessage ptr s { m with accesses := [] } timers).1.accesses,
    s.Covers a
  restarts : ∀ ptr timers, (dealMessage ptr s m timers).2 = dealKeepAlive ptr timers ↔
    call = .keepAlive
  window : ∀ ptr timers n, s.window n = s.window m →
    (dealMessage ptr s n timers).2 = (dealMessage ptr s m timers).2

def Call.AgreesOnKind (m : Memory) (call : Call) : Prop :=
  ∀ s, (call.run m).1 = some s → Dispatched call s (call.run m).2

-- The message as it is sent has an id byte. The lengths that are excluded make the string's own
-- length, four more than the length prefix, wrap around to less than five.
def Call.HasId : Call → Prop
  | .keepAlive => False
  | .bitfield bitfieldLen _ => bitfieldLen.toNat < 2 ^ 32 - 5
  | .piece _ _ sliceLen ptr =>
      ptr.room < 13 ∨ sliceLen.toNat < 2 ^ 32 - 13 ∨ 2 ^ 32 - 9 < sliceLen.toNat
  | _ => True

theorem dealKeepAlive_ne (ptr : PeerMgnt) (timers : Timer.BtTimerList) :
    dealKeepAlive ptr timers ≠ .returned timers := by
  intro same
  simp only [dealKeepAlive, Timer.BtTimerList.btTimerUpdate, Timer.BtTimerList.listDel] at same
  split at same
  next =>
    simp only [Timer.Outcome.andThen, Timer.Outcome.returned.injEq] at same
    have log := congrArg (fun s => s.deletions.length) same
    simp [Timer.BtTimerList.listAddTail, Timer.BtTimerList.setTimer] at log
  next => simp [Timer.Outcome.andThen] at same

theorem dispatched_of_long {call : Call} {s : BString} {m : Memory} (long : 5 ≤ s.len.toNat)
    (other : call ≠ .keepAlive) : Dispatched call s m := by
  have nonzero : s.len - 4 ≠ 0 := by
    intro zero
    have value := congrArg UInt32.toNat zero
    rw [UInt32.toNat_sub_of_le _ _ (by rw [UInt32.le_iff_toNat_le]; exact le_trans (by decide) long),
      show (4 : UInt32).toNat = 4 from rfl, UInt32.toNat_zero] at value
    omega
  have quiet (ptr : PeerMgnt) (timers : Timer.BtTimerList) (n : Memory) :
      (dealMessage ptr s n timers).2 = .returned timers := by
    simp only [dealMessage, if_pos nonzero]
    split <;> rfl
  constructor
  · intro ptr timers a member
    have read : a = ⟨s.data.block, s.data.offset + 4, 1⟩ := by
      simp only [dealMessage, if_pos nonzero] at member
      split at member <;> simpa [Memory.read] using member
    subst read
    exact ⟨rfl, by simp, by simp only; omega⟩
  · intro ptr timers
    rw [quiet]
    exact ⟨fun same => absurd same.symm (dealKeepAlive_ne ptr timers), fun same => absurd same other⟩
  · intro ptr timers n _
    rw [quiet, quiet]

theorem not_dispatched_of_short {call : Call} {s : BString} {m : Memory}
    (short : s.len.toNat < 5) : ¬ Dispatched call s m := by
  intro dispatched
  have covered := dispatched.reads ⟨0⟩ Timer.BtTimerList.btTimerInit
    ⟨s.data.block, s.data.offset + 4, 1⟩ (by
      simp only [dealMessage]
      split
      next => split <;> simp [Memory.read]
      next => simp [Memory.read])
  have inside := covered.2.2
  simp only at inside
  omega

theorem agreesOnKind_iff_long {call : Call} {m : Memory} {s : BString}
    (made : (call.run m).1 = some s) (other : call ≠ .keepAlive) :
    call.AgreesOnKind m ↔ 5 ≤ s.len.toNat := by
  constructor
  · intro agrees
    by_contra short
    exact not_dispatched_of_short (by omega) (agrees s made)
  · intro long t same
    rw [made] at same
    obtain rfl := Option.some.inj same
    exact dispatched_of_long long other

@[simp] theorem setPrefixAndMsgid_len (len : UInt32) (id : UInt8) (payload : Option BString)
    (m : Memory) : (setPrefixAndMsgid len id payload m).1.len = len + lenPrefix := rfl

theorem keepAlive_disagrees (m : Memory) : ¬ Call.keepAlive.AgreesOnKind m := by
  intro agrees
  apply not_dispatched_of_short _ (agrees _ rfl)
  simp only [generateKeepAliveMessage, setPrefixAndMsgid_len]
  decide

theorem bitfield_agrees_iff (m : Memory) (bitfieldLen : UInt32) (bits : Ptr) :
    (Call.bitfield bitfieldLen bits).AgreesOnKind m ↔ bitfieldLen.toNat < 2 ^ 32 - 5 := by
  rw [agreesOnKind_iff_long rfl (by simp)]
  simp only [generateBitfieldMessage, setPrefixAndMsgid_len, UInt32.toNat_add,
    show msgIdLen.toNat = 1 from rfl, show lenPrefix.toNat = 4 from rfl]
  have bound := bitfieldLen.toNat_lt
  omega

theorem piece_agrees_iff (m : Memory) (pieceIndex begin sliceLen : UInt32) (ptr : BString) :
    (Call.piece pieceIndex begin sliceLen ptr).AgreesOnKind m ↔
      ptr.room < 13 ∨ sliceLen.toNat < 2 ^ 32 - 13 ∨ 2 ^ 32 - 9 < sliceLen.toNat := by
  by_cases tight : ptr.room < 13
  · have refused : ((Call.piece pieceIndex begin sliceLen ptr).run m).1 = none := by
      simp only [Call.run, generatePieceMessage]
      rw [if_pos (by exact tight)]
    constructor
    · intro _
      exact Or.inl tight
    · intro _ s made
      rw [refused] at made
      contradiction
  · have made : ∃ s, ((Call.piece pieceIndex begin sliceLen ptr).run m).1 = some s ∧
        s.len = sliceLen + msgIdLen + 8 + lenPrefix := by
      simp only [Call.run, generatePieceMessage]
      rw [if_neg (by exact tight)]
      exact ⟨_, rfl, rfl⟩
    obtain ⟨s, made, len⟩ := made
    rw [agreesOnKind_iff_long made (by simp), len]
    simp only [UInt32.toNat_add, show msgIdLen.toNat = 1 from rfl,
      show lenPrefix.toNat = 4 from rfl, show (8 : UInt32).toNat = 8 from rfl]
    have bound := sliceLen.toNat_lt
    omega

theorem agreesOnKind_iff_hasId (m : Memory) (call : Call) : call.AgreesOnKind m ↔ call.HasId := by
  cases call with
  | keepAlive => exact iff_of_false (keepAlive_disagrees m) id
  | bitfield bitfieldLen bits => exact bitfield_agrees_iff m bitfieldLen bits
  | piece pieceIndex begin sliceLen ptr => exact piece_agrees_iff m pieceIndex begin sliceLen ptr
  | _ =>
    apply (agreesOnKind_iff_long rfl (by simp)).trans
    apply iff_of_true _ trivial
    -- The length is a constant of the generator, whatever it stores.
    exact Nat.le_of_ble_eq_true rfl

/-- The byte behind the keep-alive message is taken for its id, so the timer is not restarted. -/
theorem keepAlive_ignored :
    let made := generateKeepAliveMessage sampleMemory
    made.1.window made.2 = [0, 0, 0, 0] ∧
      (∀ ptr timers, (dealMessage ptr made.1 made.2 timers).2 = .returned timers) ∧
      ¬ Call.keepAlive.AgreesOnKind sampleMemory := by
  dsimp only
  constructor
  · decide
  constructor
  · intro ptr timers
    rfl
  · intro agrees
    have restarted := ((agrees _ rfl).restarts ⟨0⟩ Timer.BtTimerList.btTimerInit).mpr rfl
    exact dealKeepAlive_ne _ _ restarted.symm

end BTServer.Peer
