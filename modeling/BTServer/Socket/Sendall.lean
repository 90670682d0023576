import BTServer.Shared.Outcome
import BTServer.Socket.SendQueue
import Mathlib.Tactic.Ring

set_option autoImplicit false

namespace BTServer.Socket

/-- The answers of `send`, by the number of calls made before and the count asked for. -/
structure Kernel where
  send : Nat → Int → Int
  accepts : ∀ call count, 0 < count →
    send call count = -1 ∨ 0 < send call count ∧ send call count ≤ count

structure SendCall where
  start : Int
  count : Int
  result : Int

def SendCall.accepted (buf : Bytes) (call : SendCall) : Bytes :=
  (buf.drop call.start.toNat).take call.result.toNat

-- `total` and `bytesleft` stay between 0 and the length asked for, so the `int`s never wrap.
structure Progress where
  total : Int
  bytesleft : Int
  n : Int
  calls : List SendCall

def Progress.accepted (s : Progress) (buf : Bytes) : Bytes := s.calls.flatMap (·.accepted buf)

def Progress.send (s : Progress) (kernel : Kernel) : Progress :=
  let n := kernel.send s.calls.length s.bytesleft
  { s with n, calls := s.calls ++ [⟨s.total, s.bytesleft, n⟩] }

def Progress.advance (s : Progress) : Progress :=
  { s with total := s.total + s.n, bytesleft := s.bytesleft - s.n }

def sendallLoop (kernel : Kernel) (len : Int) : Nat → Progress → Outcome Progress Unit
  | 0, s => .timeout s
  | fuel + 1, s =>
    if s.total < len then
      let s := s.send kernel
      if s.n = -1 then .done () s else sendallLoop kernel len fuel s.advance
    else .done () s

/-- The returned value and what is left in `*len`. `n` is not initialised by the source: it starts
with whatever `indeterminate` stands there. -/
def sendall (kernel : Kernel) (fuel : Nat) (indeterminate len : Int) :
    Outcome Progress (Int × Int) :=
  (sendallLoop kernel len fuel ⟨0, len, indeterminate, []⟩).andThen fun _ s =>
    .done (if s.n = -1 then -1 else 0, s.total) s

def Progress.NeverIdle (s : Progress) (len : Int) : Prop :=
  ∀ before call after, s.calls = before ++ call :: after → (before.map (·.result)).sum < len

structure Progress.Sound (s : Progress) (buf : Bytes) (len : Nat) : Prop where
  nonneg : 0 ≤ s.total
  within : s.total ≤ len
  left : s.bytesleft = len - s.total
  sum : (s.calls.map (·.result)).sum = s.total
  taken : s.accepted buf = buf.take s.total.toNat
  busy : s.NeverIdle len

theorem initial_sound (buf : Bytes) (len : Nat) (indeterminate : Int) :
    Progress.Sound ⟨0, len, indeterminate, []⟩ buf len := by
  constructor <;> simp [Progress.accepted, Progress.NeverIdle]

theorem Progress.send_busy {s : Progress} {buf : Bytes} {len : Nat} (sound : s.Sound buf len)
    (more : s.total < len) (kernel : Kernel) : (s.send kernel).NeverIdle len := by
  intro before call after split
  rcases List.eq_nil_or_concat after with rfl | ⟨init, last, rfl⟩
  next =>
    have same : s.calls = before := (List.append_inj' split rfl).1
    rw [← same, sound.sum]
    exact more
  next =>
    rw [List.concat_eq_append, ← List.cons_append, ← List.append_assoc] at split
    have same : s.calls = before ++ call :: init := (List.append_inj' split rfl).1
    exact sound.busy before call init same

theorem Progress.send_accepted (s : Progress) (kernel : Kernel) (buf : Bytes) :
    (s.send kernel).accepted buf =
      s.accepted buf ++ (buf.drop s.total.toNat).take (s.send kernel).n.toNat := by
  simp [Progress.accepted, Progress.send, SendCall.accepted]

theorem Progress.round_sound {s : Progress} {buf : Bytes} {len : Nat} (sound : s.Sound buf len)
    (more : s.total < len) (kernel : Kernel) (sent : (s.send kernel).n ≠ -1) :
    (s.send kernel).advance.Sound buf len ∧ 0 < (s.send kernel).n := by
  have left := sound.left
  have nonneg := sound.nonneg
  have answer := kernel.accepts s.calls.length s.bytesleft (by omega)
  have positive : 0 < (s.send kernel).n ∧ (s.send kernel).n ≤ s.bytesleft :=
    answer.resolve_left sent
  have total : (s.send kernel).advance.total = s.total + (s.send kernel).n := rfl
  have bytesleft : (s.send kernel).advance.bytesleft = s.bytesleft - (s.send kernel).n := rfl
  refine ⟨⟨?_, ?_, ?_, ?_, ?_, ?_⟩, positive.1⟩
  · omega
  · omega
  · omega
  · have sum := sound.sum
    simp only [Progress.advance, Progress.send, List.map_append, List.sum_append, sum,
      List.map_cons, List.map_nil, List.sum_cons, List.sum_nil, Int.add_zero]
  · have further : (s.total + (s.send kernel).n).toNat =
        s.total.toNat + (s.send kernel).n.toNat := by omega
    have accepted := s.send_accepted kernel buf
    rw [sound.taken] at accepted
    rw [total, further, List.take_add]
    exact accepted
  · exact s.send_busy sound more kernel

structure Progress.Finished (s : Progress) (buf : Bytes) (len : Nat) : Prop where
  nonneg : 0 ≤ s.total
  taken : s.accepted buf = buf.take s.total.toNat
  busy : s.NeverIdle len
  failed : s.n = -1 ↔ s.total ≠ len

theorem sendallLoop_finishes (kernel : Kernel) (buf : Bytes) (len fuel : Nat) (s : Progress)
    (sound : s.Sound buf len) (known : s.total < len ∨ s.n ≠ -1)
    (enough : (len - s.total).toNat < fuel) :
    ∃ s', sendallLoop kernel len fuel s = .done () s' ∧ s'.Finished buf len := by
  induction fuel generalizing s with
  | zero => omega
  | succ fuel ih =>
    by_cases more : s.total < len
    next =>
      by_cases failed : (s.send kernel).n = -1
      next =>
        refine ⟨s.send kernel, by simp [sendallLoop, more, failed], ?_⟩
        have accepted := s.send_accepted kernel buf
        have total : (s.send kernel).total = s.total := rfl
        refine ⟨sound.nonneg, ?_, s.send_busy sound more kernel, ?_⟩
        · rw [accepted, failed, total, sound.taken]
          simp
        · rw [total]
          omega
      next =>
        obtain ⟨sound', positive⟩ := s.round_sound sound more kernel failed
        have total : (s.send kernel).advance.total = s.total + (s.send kernel).n := rfl
        have known' : (s.send kernel).advance.n ≠ -1 := failed
        obtain ⟨s', run, finished⟩ := ih _ sound' (.inr known') (by omega)
        refine ⟨s', ?_, finished⟩
        rw [← run]
        simp [sendallLoop, more, failed]
    next =>
      have all : s.total = len := by
        have within := sound.within
        omega
      have started : s.n ≠ -1 := known.resolve_left more
      refine ⟨s, by simp [sendallLoop, more], sound.nonneg, sound.taken, sound.busy, ?_⟩
      simp [all, started]

/-- Exactly the bytes counted in `*len` were accepted, in order and once, the returned value tells
whether these are all, and no call was made for nothing. -/
def Delivers (kernel : Kernel) (buf : Bytes) (len : Nat) (indeterminate : Int) : Prop :=
  ∃ enough, ∀ fuel, enough ≤ fuel → ∃ result m s,
    sendall kernel fuel indeterminate len = .done (result, m) s ∧
      0 ≤ m ∧ s.accepted buf = buf.take m.toNat ∧
      (result = 0 ↔ m = len) ∧ (m ≠ len → result = -1) ∧ s.NeverIdle len

-- Nothing is to be sent, so `n` is read without ever having been written.
theorem sendall_nothing (kernel : Kernel) (buf : Bytes) : ¬ Delivers kernel buf 0 (-1) := by
  rintro ⟨enough, ends⟩
  obtain ⟨result, m, s, run, -, -, all, -, -⟩ := ends (enough + 1) (by omega)
  simp [sendall, sendallLoop] at run
  obtain ⟨⟨rfl, rfl⟩, -⟩ := run
  simp at all

theorem sendall_delivers_iff (kernel : Kernel) (buf : Bytes) (len : Nat) (indeterminate : Int) :
    Delivers kernel buf len indeterminate ↔ 0 < len ∨ indeterminate ≠ -1 := by
  constructor
  next =>
    intro delivers
    by_contra neither
    rw [not_or, not_not] at neither
    obtain ⟨empty, rfl⟩ := neither
    have none : len = 0 := by omega
    subst none
    exact sendall_nothing kernel buf delivers
  next =>
    intro known
    refine ⟨len + 1, fun fuel enough => ?_⟩
    have known' : (0 : Int) < len ∨ indeterminate ≠ -1 := by omega
    obtain ⟨s, run, finished⟩ := sendallLoop_finishes kernel buf len fuel
      ⟨0, len, indeterminate, []⟩ (initial_sound buf len indeterminate) known' (by simp; omega)
    refine ⟨if s.n = -1 then -1 else 0, s.total, s, by simp [sendall, run], finished.nonneg,
      finished.taken, ?_, ?_, finished.busy⟩
    · have failed := finished.failed
      split
      next stopped => simp [failed.mp stopped]
      next going =>
        have all : s.total = len := not_not.mp fun short => going (failed.mpr short)
        simp [all]
    · intro short
      simp [finished.failed.mpr short]

def Kernel.greedy : Kernel where
  send _ count := count
  accepts _ _ some := .inr ⟨some, Int.le_refl _⟩

theorem sendall_nothing_fails : ¬ Delivers .greedy [] 0 (-1) := sendall_nothing .greedy []

end BTServer.Socket
