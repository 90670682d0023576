import Mathlib.Data.List.Iterate
import Mathlib.Data.Finset.Card
import Mathlib.Data.Finset.Range
import Mathlib.Tactic.Ring
import BTServer.Shared.Outcome
import BTServer.Socket.SendQueue

set_option autoImplicit false

namespace BTServer.Socket

inductive ByteOrder where
  | little
  | big

def ByteOrder.htons : ByteOrder → UInt16 → UInt16
  | .little, x => .ofNat (x.toNat % 256 * 256 + x.toNat / 256)
  | .big, x => x

def ByteOrder.ntohs : ByteOrder → UInt16 → UInt16 := ByteOrder.htons

theorem ByteOrder.toNat_htons_little (x : UInt16) :
    (ByteOrder.little.htons x).toNat = x.toNat % 256 * 256 + x.toNat / 256 := by
  have bound := x.toNat_lt
  have fits : x.toNat % 256 * 256 + x.toNat / 256 < 2 ^ 16 := by omega
  exact UInt16.toNat_ofNat_of_lt' fits

@[simp] theorem ByteOrder.ntohs_htons (order : ByteOrder) (x : UInt16) :
    order.ntohs (order.htons x) = x := by
  cases order with
  | big => rfl
  | little =>
    have bound := x.toNat_lt
    apply UInt16.toNat_inj.mp
    rw [ByteOrder.ntohs, toNat_htons_little, toNat_htons_little]
    omega

theorem ByteOrder.htons_injective (order : ByteOrder) : Function.Injective order.htons :=
  Function.LeftInverse.injective order.ntohs_htons

def ENOBUFS : Int := 105
def EADDRINUSE : Int := 98

def BT_IPPROTO_TCP : Int := 100
def BT_IPPROTO_UDP : Int := 101

/-- The answers of the system by the number of calls made before: a descriptor or the `errno` of a
call that returns -1. -/
structure System where
  socket : Nat → Except Int Int
  bind : Nat → Except Int Unit

-- `binds` lists the ports as they stand in the address handed to `bind`.
structure Setup where
  source : SockaddrIn
  sockets : Nat
  binds : List UInt16
  stderr : List String

def Setup.port (s : Setup) : UInt16 := s.source.port

def Setup.setPort (s : Setup) (port : UInt16) : Setup :=
  { s with source := { s.source with port } }

def Setup.print (s : Setup) (text : String) : Setup := { s with stderr := s.stderr ++ [text] }

-- source->sin_port += ntohs(source->sin_port) + 5; source->sin_port = htons(source->sin_port);
def nextPort (order : ByteOrder) (port : UInt16) : UInt16 :=
  order.htons (port + (order.ntohs port + 5))

def bindRetry (order : ByteOrder) (system : System) (fd : Int) (retry : Bool) :
    Nat → Setup → Outcome Setup Int
  | 0, s => .timeout s
  | fuel + 1, s =>
    let answer := system.bind s.binds.length
    let s := { s with binds := s.binds ++ [s.port] }
    match answer with
    | .ok _ => .done fd s
    | .error errno =>
      let s := s.print ("init_socket bind error(" ++ toString errno ++ ")\n")
      if errno = EADDRINUSE then
        if retry then bindRetry order system fd retry fuel (s.setPort (nextPort order s.port))
        else .done (-1) s
      else if errno = ENOBUFS then bindRetry order system fd retry fuel s
      else .done (-1) s

def socketRetry (order : ByteOrder) (system : System) (retry : Bool) :
    Nat → Setup → Outcome Setup Int
  | 0, s => .timeout s
  | fuel + 1, s =>
    let answer := system.socket s.sockets
    let s := { s with sockets := s.sockets + 1 }
    match answer with
    | .ok fd => bindRetry order system fd retry fuel s
    | .error errno =>
      let s := s.print ("init_socket socket error(" ++ toString errno ++ ")\n")
      if retry ∧ errno = ENOBUFS then socketRetry order system retry fuel s else .done (-1) s

def initSocket (order : ByteOrder) (system : System) (fuel : Nat) (source : SockaddrIn) (flag : Int)
    (retry : Bool) : Outcome Setup Int :=
  let s : Setup := ⟨source, 0, [], []⟩
  if flag = BT_IPPROTO_TCP ∨ flag = BT_IPPROTO_UDP then socketRetry order system retry fuel s
  else .done (-1) (s.print ("init_socket flag(" ++ toString flag ++ ") doesn't support\n"))

-- Whatever the answer is, the port has been tried.
theorem bindRetry_tries (order : ByteOrder) (system : System) (fd : Int) (retry : Bool) (fuel : Nat)
    (s : Setup)
    (later : ∀ s' : Setup, s'.binds <+: (bindRetry order system fd retry fuel s').final.binds) :
    s.binds ++ [s.port] <+: (bindRetry order system fd retry (fuel + 1) s).final.binds := by
  have continues (s' : Setup) (tried : s'.binds = s.binds ++ [s.port]) :
      s.binds ++ [s.port] <+: (bindRetry order system fd retry fuel s').final.binds := by
    rw [← tried]
    exact later s'
  rw [bindRetry]
  cases system.bind s.binds.length with
  | ok bound => exact List.prefix_rfl
  | error errno =>
    dsimp only
    split
    next =>
      split
      next => exact continues _ rfl
      next => exact List.prefix_rfl
    next =>
      split
      next => exact continues _ rfl
      next => exact List.prefix_rfl

theorem bindRetry_extends (order : ByteOrder) (system : System) (fd : Int) (retry : Bool)
    (fuel : Nat) (s : Setup) :
    s.binds <+: (bindRetry order system fd retry fuel s).final.binds := by
  induction fuel generalizing s with
  | zero => exact List.prefix_rfl
  | succ fuel ih =>
    exact (List.prefix_append _ _).trans (bindRetry_tries order system fd retry fuel s ih)

def System.Busy (system : System) (first k : Nat) : Prop :=
  ∀ i, i < k → system.bind (first + i) = .error EADDRINUSE

theorem bindRetry_busy (order : ByteOrder) (system : System) (fd : Int) (k fuel : Nat) (s : Setup)
    (busy : system.Busy s.binds.length k) (enough : k < fuel) :
    s.binds ++ List.iterate (nextPort order) s.port (k + 1) <+:
      (bindRetry order system fd true fuel s).final.binds := by
  induction k generalizing s fuel with
  | zero =>
    obtain ⟨fuel, rfl⟩ : ∃ n, fuel = n + 1 := ⟨fuel - 1, by omega⟩
    exact bindRetry_tries order system fd true fuel s (bindRetry_extends order system fd true fuel)
  | succ k ih =>
    obtain ⟨fuel, rfl⟩ : ∃ n, fuel = n + 1 := ⟨fuel - 1, by omega⟩
    have taken := busy 0 (by omega)
    rw [Nat.add_zero] at taken
    simp only [bindRetry, taken, if_true]
    have later := ih fuel
      (Setup.setPort (Setup.print { s with binds := s.binds ++ [s.port] }
        ("init_socket bind error(" ++ toString EADDRINUSE ++ ")\n")) (nextPort order s.port))
      (fun i small => by
        have next := busy (i + 1) (by omega)
        rw [Nat.add_comm i 1, ← Nat.add_assoc] at next
        simpa [Setup.setPort, Setup.print] using next)
      (by omega)
    simpa [Setup.setPort, Setup.print, Setup.port, List.iterate] using later

def System.Opens (system : System) : Prop :=
  ∃ m fd, (∀ i, i < m → system.socket i = .error ENOBUFS) ∧ system.socket m = .ok fd

def Supported (flag : Int) : Prop := flag = BT_IPPROTO_TCP ∨ flag = BT_IPPROTO_UDP

theorem socketRetry_opens (order : ByteOrder) (system : System) (m : Nat) (fd : Int) (fuel : Nat)
    (s : Setup) (full : ∀ i, i < m → system.socket (s.sockets + i) = .error ENOBUFS)
    (opens : system.socket (s.sockets + m) = .ok fd) (enough : m < fuel) :
    ∃ s', socketRetry order system true fuel s =
        bindRetry order system fd true (fuel - (m + 1)) s' ∧
      s'.source = s.source ∧ s'.binds = s.binds := by
  induction m generalizing s fuel with
  | zero =>
    obtain ⟨fuel, rfl⟩ : ∃ n, fuel = n + 1 := ⟨fuel - 1, by omega⟩
    rw [Nat.add_zero] at opens
    refine ⟨{ s with sockets := s.sockets + 1 }, ?_, rfl, rfl⟩
    simp only [socketRetry, opens, Nat.zero_add, Nat.add_sub_cancel]
  | succ m ih =>
    obtain ⟨fuel, rfl⟩ : ∃ n, fuel = n + 1 := ⟨fuel - 1, by omega⟩
    have first := full 0 (by omega)
    rw [Nat.add_zero] at first
    simp only [socketRetry, first, and_self, if_true, Nat.reduceSubDiff]
    refine ih fuel (Setup.print { s with sockets := s.sockets + 1 }
      ("init_socket socket error(" ++ toString ENOBUFS ++ ")\n")) (fun i small => ?_) ?_ (by omega)
    · have next := full (i + 1) (by omega)
      rwa [Nat.add_comm i 1, ← Nat.add_assoc] at next
    · rwa [Nat.add_comm m 1, ← Nat.add_assoc] at opens

section Run

variable (order : ByteOrder) (system : System) (source : SockaddrIn) (flag : Int)

/-- After `k` ports in use the next one tried lies `5 * k` behind the first, in network order. -/
def StepsByFive : Prop :=
  ∀ k, system.Busy 0 k → ∃ enough, ∀ fuel, enough ≤ fuel →
    (initSocket order system fuel source flag true).final.binds[k]? =
      some (order.htons (.ofNat (((order.ntohs source.port).toNat + 5 * k) % 2 ^ 16)))

def TriesEachOnce : Prop :=
  ∀ k, system.Busy 0 k → k < 2 ^ 16 → ∃ enough, ∀ fuel, enough ≤ fuel →
    ((initSocket order system fuel source flag true).final.binds.take (k + 1)).Nodup

variable {order} {system} {source} {flag} (opens : system.Opens) (supported : Supported flag)

include opens supported

theorem initSocket_busy {k : Nat} (busy : system.Busy 0 k) : ∃ enough, ∀ fuel, enough ≤ fuel →
    List.iterate (nextPort order) source.port (k + 1) <+:
      (initSocket order system fuel source flag true).final.binds := by
  obtain ⟨m, fd, full, opened⟩ := opens
  refine ⟨m + k + 2, fun fuel large => ?_⟩
  obtain ⟨s, bound, address, none⟩ := socketRetry_opens order system m fd fuel ⟨source, 0, [], []⟩
    (by simpa using full) (by simpa using opened) (by omega)
  have none : s.binds = [] := none
  have address : s.port = source.port := congrArg SockaddrIn.port address
  have walk := bindRetry_busy order system fd k (fuel - (m + 1)) s (by rwa [none]) (by omega)
  rw [none, List.nil_append, address] at walk
  have supported : flag = BT_IPPROTO_TCP ∨ flag = BT_IPPROTO_UDP := supported
  simp only [initSocket]
  rw [if_pos supported, bound]
  exact walk

theorem stepsByFive_iff : StepsByFive order system source flag ↔
    ∀ k, system.Busy 0 k → (nextPort order)^[k] source.port =
      order.htons (.ofNat (((order.ntohs source.port).toNat + 5 * k) % 2 ^ 16)) := by
  have tried {k fuel : Nat} (walk : List.iterate (nextPort order) source.port (k + 1) <+:
      (initSocket order system fuel source flag true).final.binds) :
      (initSocket order system fuel source flag true).final.binds[k]? =
        some ((nextPort order)^[k] source.port) := by
    obtain ⟨rest, whole⟩ := walk
    rw [← whole, List.getElem?_append_left (by simp), List.getElem?_iterate _ _ _ _ (by omega)]
  constructor
  · intro steps k busy
    obtain ⟨enough, five⟩ := steps k busy
    obtain ⟨enough', walk⟩ := initSocket_busy opens supported busy
    have port := five (max enough enough') (Nat.le_max_left _ _)
    rw [tried (walk _ (Nat.le_max_right _ _))] at port
    exact Option.some.inj port
  · intro five k busy
    obtain ⟨enough, walk⟩ := initSocket_busy opens supported busy
    exact ⟨enough, fun fuel large => by rw [tried (walk fuel large), five k busy]⟩

theorem triesEachOnce_iff : TriesEachOnce order system source flag ↔
    ∀ k, system.Busy 0 k → k < 2 ^ 16 →
      (List.iterate (nextPort order) source.port (k + 1)).Nodup := by
  have tried {k fuel : Nat} (walk : List.iterate (nextPort order) source.port (k + 1) <+:
      (initSocket order system fuel source flag true).final.binds) :
      (initSocket order system fuel source flag true).final.binds.take (k + 1) =
        List.iterate (nextPort order) source.port (k + 1) := by
    rw [List.prefix_iff_eq_take, List.length_iterate] at walk
    exact walk.symm
  constructor
  · intro once k busy small
    obtain ⟨enough, distinct⟩ := once k busy small
    obtain ⟨enough', walk⟩ := initSocket_busy opens supported busy
    have ports := distinct (max enough enough') (Nat.le_max_left _ _)
    rwa [tried (walk _ (Nat.le_max_right _ _))] at ports
  · intro distinct k busy small
    obtain ⟨enough, walk⟩ := initSocket_busy opens supported busy
    exact ⟨enough, fun fuel large => by rw [tried (walk fuel large)]; exact distinct k busy small⟩

end Run

-- The stored port is added to its own host-order value: no harm comes of it at port 0 only.
theorem nextPort_five_iff (order : ByteOrder) (port : UInt16) :
    nextPort order port = order.htons (.ofNat (((order.ntohs port).toNat + 5 * 1) % 2 ^ 16)) ↔
      port = 0 := by
  have wanted : UInt16.ofNat (((order.ntohs port).toNat + 5 * 1) % 2 ^ 16) = order.ntohs port + 5 := by
    apply UInt16.toNat_inj.mp
    simp [UInt16.toNat_add]
  rw [wanted, nextPort, order.htons_injective.eq_iff]
  simp

theorem ByteOrder.htons_ntohs (order : ByteOrder) (x : UInt16) : order.htons (order.ntohs x) = x :=
  order.ntohs_htons x

theorem ByteOrder.htons_zero (order : ByteOrder) : order.htons 0 = 0 := by cases order <;> rfl

theorem System.Busy.small {system : System} {k n : Nat} (busy : system.Busy 0 k)
    (free : system.bind n ≠ .error EADDRINUSE) : k ≤ n := by
  by_contra more
  apply free
  have taken := busy n (by omega)
  rwa [Nat.zero_add] at taken

/-- The walk is right as long as the first port is not in use, or from port 0 the second. -/
theorem bind_retry_walks_iff (order : ByteOrder) (system : System) (source : SockaddrIn)
    (flag : Int) (opens : system.Opens) (supported : Supported flag) :
    StepsByFive order system source flag ∧ TriesEachOnce order system source flag ↔
      system.bind 0 ≠ .error EADDRINUSE ∨
        (order.ntohs source.port = 0 ∧ system.bind 1 ≠ .error EADDRINUSE) := by
  rw [stepsByFive_iff opens supported, triesEachOnce_iff opens supported]
  have zero : order.ntohs source.port = 0 ↔ source.port = 0 := by
    rw [← order.htons_injective.eq_iff, order.htons_ntohs, order.htons_zero]
  have unmoved : source.port =
      order.htons (.ofNat (((order.ntohs source.port).toNat + 5 * 0) % 2 ^ 16)) := by
    simp [order.htons_ntohs]
  constructor
  · rintro ⟨five, -⟩
    refine or_iff_not_imp_left.mpr fun first => ?_
    have first : system.bind 0 = .error EADDRINUSE := not_not.mp first
    have start : source.port = 0 := (nextPort_five_iff order source.port).mp
      (five 1 fun i small => by rwa [show 0 + i = 0 by omega])
    refine ⟨zero.mpr start, fun second => ?_⟩
    have third := five 2 fun i small => by
      obtain rfl | rfl : i = 0 ∨ i = 1 := by omega
      · exact first
      · exact second
    rw [start] at third
    cases order with
    | little => exact absurd third (by decide)
    | big => exact absurd third (by decide)
  · rintro (free | ⟨start, free⟩)
    · have only {k : Nat} (busy : system.Busy 0 k) : k = 0 := Nat.le_zero.mp (busy.small free)
      refine ⟨fun k busy => ?_, fun k busy _ => ?_⟩
      · obtain rfl := only busy
        exact unmoved
      · obtain rfl := only busy
        exact List.nodup_singleton _
    · have start := zero.mp start
      have first {k : Nat} (busy : system.Busy 0 k) : k = 0 ∨ k = 1 :=
        Nat.le_one_iff_eq_zero_or_eq_one.mp (busy.small free)
      refine ⟨fun k busy => ?_, fun k busy _ => ?_⟩
      · rcases first busy with rfl | rfl
        · exact unmoved
        · exact (nextPort_five_iff order source.port).mpr start
      · rcases first busy with rfl | rfl
        · exact List.nodup_singleton _
        · rw [start]
          cases order <;> decide

def System.busyOnce : System where
  socket _ := .ok 3
  bind n := if n = 0 then .error EADDRINUSE else .ok ()

theorem bind_retry_walks_from_zero :
    StepsByFive .little .busyOnce ⟨2, 0, 0⟩ BT_IPPROTO_TCP ∧
      TriesEachOnce .little .busyOnce ⟨2, 0, 0⟩ BT_IPPROTO_TCP :=
  (bind_retry_walks_iff .little .busyOnce ⟨2, 0, 0⟩ BT_IPPROTO_TCP ⟨0, 3, by simp, rfl⟩
    (.inl rfl)).mpr (.inr ⟨by decide, by simp [System.busyOnce]⟩)

theorem nextPort_misses (order : ByteOrder) (port : UInt16) :
    nextPort order port ≠ order.htons 0 ∧ nextPort order port ≠ order.htons 2 := by
  have sum : (port + (order.ntohs port + 5)).toNat =
      (port.toNat + ((order.ntohs port).toNat + 5)) % 2 ^ 16 := by
    simp [UInt16.toNat_add]
  have misses : (port + (order.ntohs port + 5)).toNat ≠ 0 ∧
      (port + (order.ntohs port + 5)).toNat ≠ 2 := by
    rw [sum]
    cases order with
    | little =>
      -- Both bytes count 257 times, whatever their order.
      obtain ⟨bytes, small, value⟩ : ∃ bytes, bytes ≤ 510 ∧
          port.toNat + ((ByteOrder.little.ntohs port).toNat + 5) = 257 * bytes + 5 := by
        have bound := port.toNat_lt
        refine ⟨port.toNat / 256 + port.toNat % 256, by omega, ?_⟩
        rw [ByteOrder.ntohs, ByteOrder.toNat_htons_little]
        omega
      rw [value]
      clear sum value
      omega
    | big =>
      rw [ByteOrder.ntohs, ByteOrder.htons]
      omega
  constructor
  next =>
    intro same
    exact misses.1 (congrArg UInt16.toNat (order.htons_injective same))
  next =>
    intro same
    exact misses.2 (congrArg UInt16.toNat (order.htons_injective same))

def System.crowded : System where
  socket _ := .ok 3
  bind _ := .error EADDRINUSE

theorem crowded_opens : System.crowded.Opens := ⟨0, 3, by simp, rfl⟩

-- A walk over all ports would meet both values that no step leads to, and only one can be the start.
theorem not_triesEachOnce (order : ByteOrder) (source : SockaddrIn) :
    ¬ TriesEachOnce order .crowded source BT_IPPROTO_TCP := by
  rw [triesEachOnce_iff crowded_opens (.inl rfl)]
  intro once
  have distinct := once (2 ^ 16 - 1) (fun _ _ => rfl) (by omega)
  have all (port : UInt16) : port ∈ List.iterate (nextPort order) source.port (2 ^ 16) := by
    let ports := (List.iterate (nextPort order) source.port (2 ^ 16)).map UInt16.toNat
    have separate : ports.Nodup := distinct.map fun _ _ => UInt16.toNat_inj.mp
    have inside : ports.toFinset ⊆ Finset.range (2 ^ 16) := by
      intro n present
      obtain ⟨port, -, rfl⟩ := List.mem_map.mp (List.mem_toFinset.mp present)
      exact Finset.mem_range.mpr port.toNat_lt
    have full : ports.toFinset = Finset.range (2 ^ 16) := by
      apply Finset.eq_of_subset_of_card_le inside
      rw [List.toFinset_card_of_nodup separate, List.length_map, List.length_iterate,
        Finset.card_range]
    have present : port.toNat ∈ ports.toFinset := by
      rw [full]
      exact Finset.mem_range.mpr port.toNat_lt
    obtain ⟨port', present, same⟩ := List.mem_map.mp (List.mem_toFinset.mp present)
    rw [← UInt16.toNat_inj.mp same]
    exact present
  have start (port : UInt16) (missed : ∀ before, nextPort order before ≠ port) :
      port = source.port := by
    obtain ⟨m, -, reached⟩ := List.mem_iterate.mp (all port)
    cases m with
    | zero => exact reached
    | succ m =>
      rw [Function.iterate_succ_apply'] at reached
      exact absurd reached.symm (missed _)
  have clash := (start _ fun before => (nextPort_misses order before).1).trans
    (start _ fun before => (nextPort_misses order before).2).symm
  exact absurd (order.htons_injective clash) (by decide)

-- Port 64511 is followed by itself: while it is in use, nothing else is ever tried.
theorem bind_retry_spins :
    nextPort .little (ByteOrder.little.htons 64511) = ByteOrder.little.htons 64511 ∧
      ¬ StepsByFive .little .crowded ⟨2, ByteOrder.little.htons 64511, 0⟩ BT_IPPROTO_TCP ∧
      ¬ TriesEachOnce .little .crowded ⟨2, ByteOrder.little.htons 64511, 0⟩ BT_IPPROTO_TCP := by
  refine ⟨by decide, fun steps => ?_, not_triesEachOnce _ _⟩
  have first := (stepsByFive_iff crowded_opens (.inl rfl)).mp steps 1 fun _ _ => rfl
  exact absurd first (by decide)

end BTServer.Socket
