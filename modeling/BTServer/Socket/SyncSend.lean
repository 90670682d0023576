import BTServer.Socket.Bind
import BTServer.Socket.Sendall

set_option autoImplicit false

namespace BTServer.Socket

open Outcome

def EINTR : Int := 4
def EISCONN : Int := 106
def ETIMEDOUT : Int := 110
def EINPROGRESS : Int := 115

def getFdByPort (_port : UInt16) : Int := 0

/-- The answers of the system; `errno` is what `init_socket` leaves there. -/
structure Network where
  system : System
  connect : Nat → Except Int Unit
  kernel : Kernel
  errno : Int

-- `connects` and `sends` list the calls with their descriptor.
structure Sync where
  opened : Option Setup
  connects : List Int
  sends : List (Int × SendCall)
  stderr : List String

def Sync.print (s : Sync) (text : String) : Sync := { s with stderr := s.stderr ++ [text] }

def errDeal (errno : Int) (s : Sync) : Outcome Sync Int :=
  .done (-1) (s.print ("bt_sync_send send error(" ++ toString errno ++ ")\n"))

/-- From the label `CONNECT_RETRY` on; the result is the `errno` of a jump to `ERR_DEAL`. -/
def connectRetry (network : Network) (fd : Int) : Nat → Nat → Sync → Outcome Sync (Option Int)
  | 0, _, s => .timeout s
  | fuel + 1, retry, s =>
    let answer := network.connect s.connects.length
    let s := { s with connects := s.connects ++ [fd] }
    match answer with
    | .ok _ => .done none s
    | .error errno =>
      if errno = EADDRINUSE ∨ errno = EINPROGRESS ∨ errno = EISCONN then .done none s
      else if errno = EINTR ∨ errno = ETIMEDOUT then
        if retry > 5 then .done (some errno) s else connectRetry network fd fuel (retry + 1) s
      else .done (some errno) s

-- What follows the choice of the descriptor. Neither result of `send` is looked at.
def sendOn (network : Network) (fuel : Nat) (fd buflen flag indeterminate : Int) (s : Sync) :
    Outcome Sync Int :=
  if flag = BT_IPPROTO_TCP then
    (connectRetry network fd fuel 0 s).andThen fun refused s =>
      match refused with
      | some errno => errDeal errno s
      | none =>
        let ret := network.kernel.send 0 buflen
        .done 0 { s with sends := s.sends ++ [(fd, ⟨0, buflen, ret⟩)] }
  else if flag = BT_IPPROTO_UDP then
    match sendall network.kernel fuel indeterminate buflen with
    | .done _ progress => .done 0 { s with sends := s.sends ++ progress.calls.map (fd, ·) }
    | .fault _ => .fault s
    | .crash _ => .crash s
    | .timeout _ => .timeout s
  else .done 0 (s.print ("bt_sync_send flag(" ++ toString flag ++ ") doesn't support\n"))

/-- The descriptor is compared where it should be assigned. -/
def btSyncSend (order : ByteOrder) (network : Network) (fuel : Nat) (source : SockaddrIn)
    (buflen flag indeterminate : Int) : Outcome Sync Int :=
  let s : Sync := ⟨none, [], [], []⟩
  let fd : Int := 0
  let equal : Int := if fd = getFdByPort (order.ntohs source.port) then 1 else 0
  if equal = 0 then
    match initSocket order network.system fuel source flag true with
    | .done fd setup =>
      let s := { s with opened := some setup, stderr := s.stderr ++ setup.stderr }
      if fd = -1 then errDeal network.errno s else sendOn network fuel fd buflen flag indeterminate s
    | .fault setup => .fault { s with opened := some setup }
    | .crash setup => .crash { s with opened := some setup }
    | .timeout setup => .timeout { s with opened := some setup }
  else sendOn network fuel fd buflen flag indeterminate s

def Again (answer : Except Int Unit) : Prop := answer = .error EINTR ∨ answer = .error ETIMEDOUT

def Hopeless (answer : Except Int Unit) : Prop :=
  ∃ errno ∉ [EADDRINUSE, EINPROGRESS, EISCONN, EINTR, ETIMEDOUT], answer = .error errno

def RefusedFrom (network : Network) (first : Nat) : Prop :=
  (∀ i, first ≤ i → i < 7 → Again (network.connect i)) ∨
    ∃ k, first ≤ k ∧ k < 7 ∧ (∀ i, first ≤ i → i < k → Again (network.connect i)) ∧
      Hopeless (network.connect k)

theorem refusedFrom_of_again {network : Network} {first : Nat}
    (again : Again (network.connect first)) :
    RefusedFrom network first ↔ RefusedFrom network (first + 1) := by
  have shift {k : Nat} (later : ∀ i, first + 1 ≤ i → i < k → Again (network.connect i)) (i : Nat)
      (low : first ≤ i) (high : i < k) : Again (network.connect i) := by
    rcases Nat.eq_or_lt_of_le low with rfl | above
    next => exact again
    next => exact later i above high
  have known : ¬ Hopeless (network.connect first) := by
    rintro ⟨errno, other, answer⟩
    rcases again with same | same
    next => rw [same] at answer; cases answer; exact other (by simp)
    next => rw [same] at answer; cases answer; exact other (by simp)
  constructor
  next =>
    rintro (all | ⟨k, low, high, before, hopeless⟩)
    next => exact .inl fun i low => all i (by omega)
    next =>
      have above : first ≠ k := fun same => known (same ▸ hopeless)
      exact .inr ⟨k, by omega, high, fun i low => before i (by omega), hopeless⟩
  next =>
    rintro (all | ⟨k, low, high, before, hopeless⟩)
    next => exact .inl (shift all)
    next => exact .inr ⟨k, by omega, high, shift before, hopeless⟩

theorem refusedFrom_of_other {network : Network} {first : Nat} (inside : first < 7)
    (other : ¬ Again (network.connect first)) :
    RefusedFrom network first ↔ Hopeless (network.connect first) := by
  constructor
  next =>
    rintro (all | ⟨k, low, high, before, hopeless⟩)
    next => exact absurd (all first (Nat.le_refl _) inside) other
    next =>
      rcases Nat.eq_or_lt_of_le low with rfl | above
      next => exact hopeless
      next => exact absurd (before first (Nat.le_refl _) above) other
  next =>
    intro hopeless
    exact .inr ⟨first, Nat.le_refl _, inside, fun i low high => absurd high (by omega), hopeless⟩

theorem connectRetry_spec (network : Network) {retry fuel : Nat} (inside : retry < 7)
    (enough : 7 ≤ retry + fuel) {s : Sync} (calls : s.connects = List.replicate retry 0) :
    ∃ refused k, k ≤ 7 ∧ (refused.isSome = true ↔ RefusedFrom network retry) ∧
      connectRetry network 0 fuel retry s =
        .done refused { s with connects := List.replicate k 0 } := by
  -- The counter grows with every call: six of them are followed by another one.
  induction fuel generalizing retry s with
  | zero => omega
  | succ fuel ih =>
    have count : s.connects.length = retry := by rw [calls, List.length_replicate]
    have next : s.connects ++ [0] = List.replicate (retry + 1) 0 := by
      rw [calls, ← List.replicate_succ']
    rw [connectRetry, count, next]
    cases answer : network.connect retry with
    | ok connected =>
      have refused := refusedFrom_of_other inside (by rw [answer]; simp [Again])
      refine ⟨none, retry + 1, by omega, ?_, rfl⟩
      rw [refused, answer]
      simp [Hopeless]
    | error errno =>
      dsimp only
      by_cases passed : errno = EADDRINUSE ∨ errno = EINPROGRESS ∨ errno = EISCONN
      next =>
        have other : ¬ Again (network.connect retry) := by
          rw [answer]
          rcases passed with rfl | rfl | rfl <;>
            simp [Again, EADDRINUSE, EINPROGRESS, EISCONN, EINTR, ETIMEDOUT]
        rw [if_pos passed]
        refine ⟨none, retry + 1, by omega, ?_, rfl⟩
        rw [refusedFrom_of_other inside other, answer]
        rcases passed with rfl | rfl | rfl <;> simp [Hopeless]
      next =>
        rw [if_neg passed]
        by_cases again : errno = EINTR ∨ errno = ETIMEDOUT
        next =>
          have repeated : Again (network.connect retry) := by
            rw [answer]
            rcases again with rfl | rfl <;> simp [Again]
          rw [if_pos again]
          by_cases last : retry > 5
          next =>
            rw [if_pos last]
            refine ⟨some errno, retry + 1, by omega, ?_, rfl⟩
            refine iff_of_true rfl ((refusedFrom_of_again repeated).mpr (.inl ?_))
            intro i low high
            omega
          next =>
            rw [if_neg last]
            obtain ⟨refused, k, few, iff, run⟩ := @ih (retry + 1) (by omega) (by omega)
              { s with connects := List.replicate (retry + 1) 0 } rfl
            exact ⟨refused, k, few, iff.trans (refusedFrom_of_again repeated).symm, run⟩
        next =>
          have other : ¬ Again (network.connect retry) := by
            rw [answer]
            simpa [Again] using again
          rw [if_neg again]
          refine ⟨some errno, retry + 1, by omega, ?_, rfl⟩
          refine iff_of_true rfl ((refusedFrom_of_other inside other).mpr ⟨errno, ?_, answer⟩)
          simp only [List.mem_cons, List.not_mem_nil, or_false]
          tauto

/-- No socket is opened: whatever is sent goes to descriptor 0. -/
structure SyncSent (network : Network) (buflen flag ret : Int) (s : Sync) : Prop where
  opened : s.opened = none
  connects : ∃ k ≤ 7, s.connects = List.replicate k 0
  sends : ∀ call ∈ s.sends, call.1 = 0
  result : ret = 0 ∨ ret = -1 ∧ s.sends = []
  failed : ret = -1 ↔ flag = BT_IPPROTO_TCP ∧ RefusedFrom network 0
  once : flag = BT_IPPROTO_TCP → ret = 0 →
    s.sends = [(0, ⟨0, buflen, network.kernel.send 0 buflen⟩)]

theorem sendall_returns (kernel : Kernel) (len fuel : Nat) (enough : len < fuel)
    (indeterminate : Int) :
    ∃ result s, sendall kernel fuel indeterminate len = .done result s := by
  by_cases known : (0 : Int) < len ∨ indeterminate ≠ -1
  next =>
    obtain ⟨s, run, -⟩ := sendallLoop_finishes kernel [] len fuel ⟨0, len, indeterminate, []⟩
      (initial_sound [] len indeterminate) known (by simp; omega)
    exact ⟨_, s, by rw [sendall, run]; rfl⟩
  next =>
    obtain ⟨fuel, rfl⟩ : ∃ n, fuel = n + 1 := ⟨fuel - 1, by omega⟩
    exact ⟨_, _, by rw [sendall, sendallLoop, if_neg (by simpa using fun h => known (.inl h))]; rfl⟩

theorem sync_send_never_opens (order : ByteOrder) (network : Network) (source : SockaddrIn)
    (buflen : Nat) (flag indeterminate : Int) {fuel : Nat} (enough : max 7 (buflen + 1) ≤ fuel) :
    ∃ ret s, btSyncSend order network fuel source buflen flag indeterminate = .done ret s ∧
      SyncSent network buflen flag ret s := by
  have start : btSyncSend order network fuel source buflen flag indeterminate =
      sendOn network fuel 0 buflen flag indeterminate ⟨none, [], [], []⟩ := rfl
  rw [start, sendOn]
  by_cases tcp : flag = BT_IPPROTO_TCP
  next =>
    obtain ⟨refused, k, few, iff, run⟩ := @connectRetry_spec network 0 fuel (by omega) (by omega)
      ⟨none, [], [], []⟩ rfl
    rw [if_pos tcp, run, done_andThen]
    cases refused with
    | some errno =>
      refine ⟨-1, _, rfl, ⟨rfl, ⟨k, few, rfl⟩, by simp [Sync.print], .inr ⟨rfl, rfl⟩, ?_, by simp⟩⟩
      exact iff_of_true rfl ⟨tcp, iff.mp rfl⟩
    | none =>
      refine ⟨0, _, rfl, ⟨rfl, ⟨k, few, rfl⟩, by simp, .inl rfl, ?_, fun _ _ => rfl⟩⟩
      exact iff_of_false (by decide) fun refused => absurd (iff.mpr refused.2) (by simp)
  next =>
    have fine : ((0 : Int) = -1 ↔ flag = BT_IPPROTO_TCP ∧ RefusedFrom network 0) :=
      iff_of_false (by decide) fun refused => tcp refused.1
    rw [if_neg tcp]
    by_cases udp : flag = BT_IPPROTO_UDP
    next =>
      obtain ⟨result, progress, run⟩ := sendall_returns network.kernel buflen fuel (by omega)
        indeterminate
      rw [if_pos udp, run]
      exact ⟨0, _, rfl, ⟨rfl, ⟨0, by omega, rfl⟩, by simp, .inl rfl, fine,
        fun same => absurd same tcp⟩⟩
    next =>
      rw [if_neg udp]
      exact ⟨0, _, rfl, ⟨rfl, ⟨0, by omega, rfl⟩, by simp [Sync.print], .inl rfl, fine,
        fun same => absurd same tcp⟩⟩

-- A peer that can not be reached in time is tried seven times.
def Network.slow : Network :=
  ⟨.crowded, fun _ => .error ETIMEDOUT, .greedy, 0⟩

theorem sync_send_slow : ∃ s,
    btSyncSend .little .slow 7 ⟨2, 0, 0⟩ 5 BT_IPPROTO_TCP 0 = .done (-1) s ∧
      SyncSent .slow 5 BT_IPPROTO_TCP (-1) s := by
  obtain ⟨ret, s, run, sent⟩ := @sync_send_never_opens .little .slow ⟨2, 0, 0⟩ 5 BT_IPPROTO_TCP 0 7
    (by decide)
  have failed : ret = -1 := sent.failed.mpr ⟨rfl, .inl fun _ _ _ => .inr rfl⟩
  subst failed
  exact ⟨s, run, sent⟩

end BTServer.Socket
