import BTServer.Shared.LinkedList
import BTServer.Shared.Outcome

set_option autoImplicit false

-- The peers of `peer_manage.c` and the descriptors of the process.
namespace BTServer.PeerManage

open LinkedList Outcome

inductive Node where
  | null
  | poison₁
  | poison₂
  | peer (ptr : Nat)
  deriving DecidableEq

structure PeerMgnt where
  ip : UInt32
  port : UInt16
  sock : Int
  peerId : Option Nat
  task : Nat

def PeerMgnt.zero : PeerMgnt := ⟨0, 0, 0, none, 0⟩

/-- The answers of the system, by the number of calls made before. A descriptor that is handed out
was not open. -/
structure System where
  malloc : Nat → Bool
  socket : List Int → Nat → Except Int Int
  connect : Nat → Except Int Unit
  fresh : ∀ descriptors calls fd, socket descriptors calls = .ok fd → fd ∉ descriptors

-- Peers and strings are told apart by a number; `mallocs` is the number of the next peer.
structure Process where
  mallocs : Nat
  sockets : Nat
  connects : Nat
  peers : Nat → PeerMgnt
  links : Links Node
  freedPeers : List Nat
  freedStrings : List Nat
  descriptors : List Int
  trace : List String

def Process.initial : Process where
  mallocs := 0
  sockets := 0
  connects := 0
  peers _ := .zero
  links _ := ⟨.null, .null⟩
  freedPeers := []
  freedStrings := []
  descriptors := []
  trace := []

def Process.print (p : Process) (text : String) : Process := { p with trace := p.trace ++ [text] }

def Process.access (p : Process) : Node → Outcome Process Unit
  | .null => .crash p
  | .poison₁ => .fault p
  | .poison₂ => .fault p
  | .peer ptr => if ptr < p.mallocs ∧ ptr ∉ p.freedPeers then .done () p else .fault p

def Process.listDel (p : Process) (entry : Node) : Outcome Process Unit :=
  (p.access entry).andThen fun _ p =>
    (p.access (p.links entry).next).andThen fun _ p =>
      (p.access (p.links entry).prev).andThen fun _ p =>
        .done () { p with links := LinkedList.listDel .poison₁ .poison₂ p.links entry }

def Process.bStringFree (p : Process) : Option Nat → Outcome Process Unit
  | none => .done () p
  | some string =>
    if string ∈ p.freedStrings then .fault p
    else .done () { p with freedStrings := string :: p.freedStrings }

def peerAlloc (system : System) (p : Process) : Outcome Process Nat :=
  let ptr := p.mallocs
  if system.malloc ptr then
    .done ptr { p with
      mallocs := ptr + 1
      peers := Function.update p.peers ptr .zero
      links := Function.update p.links (.peer ptr) ⟨.null, .null⟩ }
  else .crash p

def peerFree (ptr : Nat) (p : Process) : Outcome Process Unit :=
  (p.listDel (.peer ptr)).andThen fun _ p =>
    (p.bStringFree (p.peers ptr).peerId).andThen fun _ p =>
      .done () { p with freedPeers := ptr :: p.freedPeers }

structure Address where
  ip : UInt32
  port : UInt16
  peerId : Option Nat
  task : Nat

def errDeal (ptr : Nat) (p : Process) : Outcome Process (Option Nat) :=
  (peerFree ptr p).andThen fun _ p => .done none p

/-- The descriptor is not kept: `sock` stays as it was cleared. -/
def peerInit (system : System) (a : Address) (p : Process) : Outcome Process (Option Nat) :=
  (peerAlloc system p).andThen fun ptr p =>
    let peer := { p.peers ptr with ip := a.ip, port := a.port, peerId := a.peerId, task := a.task }
    let p := { p with peers := Function.update p.peers ptr peer }
    let answer := system.socket p.descriptors p.sockets
    let p := { p with sockets := p.sockets + 1 }
    match answer with
    | .error errno =>
      errDeal ptr (p.print ("socket error, errno=(" ++ toString errno ++ ")\n"))
    | .ok sockfd =>
      let p := { p with descriptors := sockfd :: p.descriptors }
      let answer := system.connect p.connects
      let p := { p with connects := p.connects + 1 }
      match answer with
      | .error errno =>
        let p := p.print ("connect error, errno=(" ++ toString errno ++ ")\n")
        errDeal ptr { p with descriptors := p.descriptors.erase sockfd }
      | .ok _ => .done (some ptr) p

def peerInits (system : System) : List Address → Process → Outcome Process (List (Option Nat))
  | [], p => .done [] p
  | a :: later, p =>
    (peerInit system a p).andThen fun ptr p =>
      (peerInits system later p).andThen fun ptrs p => .done (ptr :: ptrs) p

structure Made (n : Nat) (p : Process) : Prop where
  mallocs : p.mallocs = n
  sockets : p.sockets = n
  connects : p.connects = n
  freed : p.freedPeers = []
  socks : ∀ ptr, (p.peers ptr).sock = 0
  heads : ∀ ptr < n, p.links (.peer ptr) = ⟨.null, .null⟩
  separate : p.descriptors.Nodup
  held : p.descriptors.length = n

theorem initial_made : Made 0 .initial :=
  ⟨rfl, rfl, rfl, rfl, fun _ => rfl, fun _ _ => rfl, List.nodup_nil, rfl⟩

def Grants (system : System) (p : Process) : Prop :=
  system.malloc p.mallocs = true ∧ (∃ fd, system.socket p.descriptors p.sockets = .ok fd) ∧
    system.connect p.connects = .ok ()

-- The head of a peer is cleared and nothing puts the peer on a list.
theorem peerFree_unlinked {ptr : Nat} {p : Process} (allocated : ptr < p.mallocs)
    (kept : ptr ∉ p.freedPeers) (head : p.links (.peer ptr) = ⟨.null, .null⟩) :
    peerFree ptr p = .crash p := by
  simp [peerFree, Process.listDel, Process.access, allocated, kept, head]

theorem errDeal_unlinked {ptr : Nat} {p : Process} (allocated : ptr < p.mallocs)
    (kept : ptr ∉ p.freedPeers) (head : p.links (.peer ptr) = ⟨.null, .null⟩) :
    errDeal ptr p = .crash p := by
  rw [errDeal, peerFree_unlinked allocated kept head, crash_andThen]

theorem peerInit_granted {system : System} {p : Process} {n : Nat} (made : Made n p)
    (grants : Grants system p) (a : Address) :
    ∃ p', peerInit system a p = .done (some n) p' ∧ Made (n + 1) p' := by
  obtain ⟨memory, ⟨fd, opened⟩, connected⟩ := grants
  have new := system.fresh _ _ _ opened
  obtain rfl := made.mallocs
  simp only [peerInit, peerAlloc, memory, if_true, done_andThen, opened, connected,
    Function.update_self, Function.update_idem]
  refine ⟨_, rfl, ⟨rfl, by rw [made.sockets], by rw [made.connects], made.freed, fun ptr => ?_,
    fun ptr small => ?_, List.nodup_cons.mpr ⟨new, made.separate⟩, by
      rw [List.length_cons, made.held]⟩⟩
  next =>
    by_cases same : ptr = p.mallocs
    next => simp [same, PeerMgnt.zero]
    next => simpa [same] using made.socks ptr
  next =>
    by_cases same : ptr = p.mallocs
    next => simp [same]
    next => simpa [same] using made.heads ptr (by omega)

theorem peerInit_refused {system : System} {p : Process} {n : Nat} (made : Made n p)
    (refuses : ¬ Grants system p) (a : Address) :
    ∃ p', peerInit system a p = .crash p' ∧ p'.descriptors = p.descriptors := by
  cases memory : system.malloc p.mallocs with
  | false => exact ⟨p, by simp [peerInit, peerAlloc, memory], rfl⟩
  | true =>
    simp only [peerInit, peerAlloc, memory, if_true, done_andThen]
    cases opened : system.socket p.descriptors p.sockets with
    | error errno =>
      dsimp only
      rw [errDeal_unlinked (by simp [Process.print]) (by simp [Process.print, made.freed])
        (by simp [Process.print])]
      exact ⟨_, rfl, rfl⟩
    | ok fd =>
      dsimp only
      cases connected : system.connect p.connects with
      | ok connected' => exact absurd ⟨memory, ⟨fd, opened⟩, connected⟩ refuses
      | error errno =>
        dsimp only
        rw [errDeal_unlinked (by simp [Process.print]) (by simp [Process.print, made.freed])
          (by simp [Process.print])]
        exact ⟨_, rfl, by simp [Process.print]⟩

/-- The calls before the first that the system does not let succeed, and how that one ends. -/
def Breaks (system : System) (as : List Address) (n : Nat) (p : Process) : Prop :=
  ∃ k < as.length, ∃ p₀ p₁,
    peerInits system (as.take k) p = .done ((List.range' n k).map some) p₀ ∧
      Made (n + k) p₀ ∧ ¬ Grants system p₀ ∧ peerInits system as p = .crash p₁ ∧
      p₁.descriptors = p₀.descriptors

theorem peerInits_cases (system : System) (as : List Address) {n : Nat} {p : Process}
    (made : Made n p) :
    (∃ p', peerInits system as p = .done ((List.range' n as.length).map some) p' ∧
      Made (n + as.length) p') ∨ Breaks system as n p := by
  induction as generalizing n p with
  | nil => exact .inl ⟨p, rfl, made⟩
  | cons a as ih =>
    by_cases grants : Grants system p
    next =>
      obtain ⟨p₁, first, made₁⟩ := peerInit_granted made grants a
      rcases ih made₁ with ⟨p₂, others, made₂⟩ | ⟨k, inside, p₂, p₃, before, made₂, refuses, ends, same⟩
      next =>
        refine .inl ⟨p₂, ?_, by rw [List.length_cons]; convert made₂ using 1; omega⟩
        rw [peerInits, first, done_andThen, others, done_andThen, List.length_cons, List.range'_succ,
          List.map_cons]
      next =>
        refine .inr ⟨k + 1, by simpa using inside, p₂, p₃, ?_, by convert made₂ using 1; omega, refuses,
          ?_, same⟩
        next =>
          rw [List.take_succ_cons, peerInits, first, done_andThen, before, done_andThen,
            List.range'_succ, List.map_cons]
        next => rw [peerInits, first, done_andThen, ends, crash_andThen]
    next =>
      obtain ⟨p₁, crashed, same⟩ := peerInit_refused made grants a
      exact .inr ⟨0, by simp, p, p₁, rfl, made, grants, by rw [peerInits, crashed, crash_andThen],
        same⟩

theorem peer_inits_lose_descriptors (system : System) (as : List Address) :
    (∃ p, peerInits system as .initial = .done ((List.range as.length).map some) p ∧
      Made as.length p ∧ ∀ ptr < as.length, peerFree ptr p = .crash p) ∨
      Breaks system as 0 .initial := by
  rcases peerInits_cases system as initial_made with ⟨p, run, made⟩ | breaks
  next =>
    rw [Nat.zero_add] at made
    refine .inl ⟨p, by rw [run, List.range_eq_range'], made, fun ptr small => ?_⟩
    exact peerFree_unlinked (by rwa [made.mallocs]) (by simp [made.freed]) (made.heads ptr small)
  next => exact .inr breaks

end BTServer.PeerManage
