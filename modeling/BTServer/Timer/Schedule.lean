import BTServer.Timer.Model

set_option autoImplicit false

namespace BTServer.Timer

structure Listed where
  handle : Nat
  timer : BtTimer
  deriving DecidableEq

namespace Listed

def interval (t : Listed) : UInt32 := t.timer.interval

def elapse (t : Listed) : UInt32 := t.timer.elapse

def type (t : Listed) : BtTimerType := t.timer.type

def counted (t : Listed) : Listed :=
  { t with timer := { t.timer with elapse := t.timer.elapse + 1 } }

def reset (t : Listed) : Listed := { t with timer := { t.timer with elapse := 0 } }

def Due (t : Listed) : Prop := t.elapse + 1 ≥ t.interval

instance (t : Listed) : Decidable t.Due := inferInstanceAs (Decidable (_ ≥ _))

@[simp] theorem counted_handle (t : Listed) : t.counted.handle = t.handle := rfl
@[simp] theorem counted_interval (t : Listed) : t.counted.interval = t.interval := rfl
@[simp] theorem counted_type (t : Listed) : t.counted.type = t.type := rfl
@[simp] theorem counted_elapse (t : Listed) : t.counted.elapse = t.elapse + 1 := rfl
@[simp] theorem reset_handle (t : Listed) : t.reset.handle = t.handle := rfl
@[simp] theorem reset_interval (t : Listed) : t.reset.interval = t.interval := rfl
@[simp] theorem reset_type (t : Listed) : t.reset.type = t.type := rfl
@[simp] theorem reset_elapse (t : Listed) : t.reset.elapse = 0 := rfl

def invocation (t : Listed) : Invocation :=
  ⟨t.handle, t.timer.callback, t.timer.timerId, t.timer.data⟩

@[simp] theorem invocation_handle (t : Listed) : t.invocation.handle = t.handle := rfl
@[simp] theorem reset_invocation (t : Listed) : t.reset.invocation = t.invocation := rfl

theorem eq_of_reset {t u : Listed} (same : t.reset = u.reset) : t.handle = u.handle ∧
    t.type = u.type ∧ t.interval = u.interval ∧ t.invocation = u.invocation := by
  refine ⟨?_, ?_, ?_, ?_⟩
  · rw [← reset_handle t, same, reset_handle]
  · rw [← reset_type t, same, reset_type]
  · rw [← reset_interval t, same, reset_interval]
  · rw [← reset_invocation t, same, reset_invocation]

end Listed

def notAfter (t u : Listed) : Bool := u.interval ≤ t.interval

def insertTimer (t : Listed) (ts : List Listed) : List Listed :=
  ts.takeWhile (notAfter t) ++ t :: ts.dropWhile (notAfter t)

-- A tick in progress: the timers behind the cursor and those from the cursor on.
structure Sweep where
  done : List Listed
  todo : List Listed
  visited : List Nat
  invoked : List Invocation

namespace Sweep

-- A repeating timer that is due goes behind the others of its interval. When there is one ahead
-- of the cursor, the timer is ahead of the cursor again.
def step (w : Sweep) : Sweep :=
  match w.todo with
  | [] => w
  | t :: rest =>
    let visited := w.visited ++ [t.handle]
    if t.Due then
      let invoked := w.invoked ++ [t.invocation]
      if t.type = .btTimerSingle then { w with todo := rest, visited, invoked }
      else if rest.takeWhile (notAfter t) = [] then
        { done := w.done ++ [t.reset], todo := rest, visited, invoked }
      else { done := w.done, todo := insertTimer t.reset rest, visited, invoked }
    else { w with done := w.done ++ [t.counted], todo := rest, visited }

def steps : Nat → Sweep → Sweep
  | 0, w => w
  | n + 1, w => steps n w.step

def all (w : Sweep) : List Listed := w.done ++ w.todo

end Sweep

def begin (ts : List Listed) : Sweep := { done := [], todo := ts, visited := [], invoked := [] }

structure Ordered (ts : List Listed) : Prop where
  sorted : ts.Pairwise (fun t u => t.interval ≤ u.interval)
  young : ∀ t ∈ ts, t.elapse.toNat < max 1 t.interval.toNat

theorem insertTimer_perm (t : Listed) (ts : List Listed) : (insertTimer t ts).Perm (t :: ts) := by
  have split : ts = ts.takeWhile (notAfter t) ++ ts.dropWhile (notAfter t) :=
    List.takeWhile_append_dropWhile.symm
  conv_rhs => rw [split]
  exact List.perm_middle

@[simp] theorem mem_insertTimer (t u : Listed) (ts : List Listed) :
    u ∈ insertTimer t ts ↔ u = t ∨ u ∈ ts := by
  rw [(insertTimer_perm t ts).mem_iff, List.mem_cons]

theorem sorted_dropWhile (t : Listed) (ts : List Listed)
    (sorted : ts.Pairwise (fun t u => t.interval ≤ u.interval)) :
    ∀ u ∈ ts.dropWhile (notAfter t), t.interval < u.interval := by
  induction ts with
  | nil => simp
  | cons x ts ih =>
    rw [List.pairwise_cons] at sorted
    by_cases passed : notAfter t x = true
    · rw [List.dropWhile_cons_of_pos passed]
      exact ih sorted.2
    · rw [List.dropWhile_cons_of_neg passed]
      have later : t.interval < x.interval := by
        simpa [notAfter] using passed
      intro u member
      rcases List.mem_cons.mp member with rfl | member
      · exact later
      · exact UInt32.lt_of_lt_of_le later (sorted.1 u member)

theorem insertTimer_sorted (t : Listed) (ts : List Listed)
    (sorted : ts.Pairwise (fun t u => t.interval ≤ u.interval)) :
    (insertTimer t ts).Pairwise (fun t u => t.interval ≤ u.interval) := by
  have passed : ∀ u ∈ ts.takeWhile (notAfter t), u.interval ≤ t.interval := by
    intro u member
    simpa [notAfter] using List.all_eq_true.mp List.all_takeWhile u member
  have later := sorted_dropWhile t ts sorted
  have split := sorted
  rw [← List.takeWhile_append_dropWhile (p := notAfter t) (l := ts), List.pairwise_append] at split
  rw [insertTimer, List.pairwise_append, List.pairwise_cons]
  refine ⟨split.1, ⟨fun u member => UInt32.le_of_lt (later u member), split.2.1⟩, ?_⟩
  intro u front v back
  rcases List.mem_cons.mp back with rfl | back
  · exact passed u front
  · exact split.2.2 u front v back

theorem Ordered.insert {ts : List Listed} (ordered : Ordered ts) (t : Listed)
    (young : t.elapse.toNat < max 1 t.interval.toNat) : Ordered (insertTimer t ts) := by
  refine ⟨insertTimer_sorted t ts ordered.sorted, ?_⟩
  intro u member
  rcases (mem_insertTimer t u ts).mp member with rfl | member
  · exact young
  · exact ordered.young u member

theorem Ordered.sublist {ts us : List Listed} (ordered : Ordered ts) (sub : us.Sublist ts) :
    Ordered us :=
  ⟨ordered.sorted.sublist sub, fun t member => ordered.young t (sub.subset member)⟩

theorem young_of_zero (t : Listed) (zero : t.elapse = 0) :
    t.elapse.toNat < max 1 t.interval.toNat := by
  rw [zero, UInt32.toNat_zero]
  omega

theorem young_counted (t : Listed) (waiting : ¬ t.Due) :
    t.counted.elapse.toNat < max 1 t.counted.interval.toNat := by
  have less : t.elapse + 1 < t.interval := by simpa [Listed.Due] using waiting
  have := UInt32.lt_iff_toNat_lt.mp less
  simp only [Listed.counted_elapse, Listed.counted_interval]
  omega

theorem due_iff (t : Listed) (young : t.elapse.toNat < max 1 t.interval.toNat) :
    t.Due ↔ max 1 t.interval.toNat ≤ t.elapse.toNat + 1 := by
  have bound := UInt32.toNat_lt t.interval
  rw [Listed.Due, ge_iff_le, UInt32.le_iff_toNat_le, UInt32.toNat_add,
    show (1 : UInt32).toNat = 1 from rfl, Nat.mod_eq_of_lt (by omega)]
  omega

theorem dropWhile_of_takeWhile_nil (t : Listed) (ts : List Listed)
    (none : ts.takeWhile (notAfter t) = []) : ts.dropWhile (notAfter t) = ts := by
  have split := List.takeWhile_append_dropWhile (p := notAfter t) (l := ts)
  rw [none] at split
  exact split

/-- Everything one round of the loop can do. -/
theorem Sweep.step_cases (w : Sweep) (t : Listed) (rest : List Listed) (next : w.todo = t :: rest) :
    (¬ t.Due ∧ w.step = ⟨w.done ++ [t.counted], rest, w.visited ++ [t.handle], w.invoked⟩) ∨
      (t.Due ∧ t.type = .btTimerSingle ∧
        w.step = ⟨w.done, rest, w.visited ++ [t.handle], w.invoked ++ [t.invocation]⟩) ∨
      (t.Due ∧ t.type = .btTimerRepeat ∧ rest.takeWhile (notAfter t) = [] ∧
        w.step = ⟨w.done ++ [t.reset], rest, w.visited ++ [t.handle],
          w.invoked ++ [t.invocation]⟩) ∨
      (t.Due ∧ t.type = .btTimerRepeat ∧ rest.takeWhile (notAfter t) ≠ [] ∧
        w.step = ⟨w.done, insertTimer t.reset rest, w.visited ++ [t.handle],
          w.invoked ++ [t.invocation]⟩) := by
  by_cases due : t.Due
  · cases kind : t.type with
    | btTimerSingle => exact .inr (.inl ⟨due, rfl, by simp [step, next, due, kind]⟩)
    | btTimerRepeat =>
      by_cases alone : rest.takeWhile (notAfter t) = []
      · exact .inr (.inr (.inl ⟨due, rfl, alone, by simp [step, next, due, kind, alone]⟩))
      · exact .inr (.inr (.inr ⟨due, rfl, alone, by simp [step, next, due, kind, alone]⟩))
  · exact .inl ⟨due, by simp [step, next, due]⟩

theorem Sweep.step_ordered (w : Sweep) (ordered : Ordered w.all) : Ordered w.step.all := by
  cases next : w.todo with
  | nil => simpa [step, next] using ordered
  | cons t rest =>
    simp only [all, next] at ordered
    have others : Ordered (w.done ++ rest) := ordered.sublist (by simp)
    obtain ⟨front, back, across⟩ := List.pairwise_append.mp ordered.sorted
    have replaced (u : Listed) (same : u.interval = t.interval)
        (small : u.elapse.toNat < max 1 u.interval.toNat) : Ordered (w.done ++ [u] ++ rest) := by
      refine ⟨?_, ?_⟩
      · rw [List.append_assoc, List.pairwise_append]
        refine ⟨front, ?_, ?_⟩
        · simpa [same] using back
        · intro x xIn y yIn
          rcases List.mem_cons.mp (by simpa using yIn) with rfl | yIn
          · rw [same]
            exact across x xIn t (by simp)
          · exact across x xIn y (by simp [yIn])
      · intro x xIn
        simp only [List.append_assoc, List.mem_append, List.mem_singleton] at xIn
        rcases xIn with xIn | rfl | xIn
        · exact ordered.young x (by simp [xIn])
        · exact small
        · exact ordered.young x (by simp [xIn])
    rcases w.step_cases t rest next with
      ⟨waiting, result⟩ | ⟨-, -, result⟩ | ⟨-, -, -, result⟩ | ⟨-, -, -, result⟩
    · rw [result]
      exact replaced t.counted rfl (young_counted t waiting)
    · rw [result]
      exact others
    · rw [result]
      exact replaced t.reset rfl (young_of_zero _ rfl)
    · rw [result]
      have inserted := Ordered.insert (others.sublist (List.sublist_append_right _ _)) t.reset
        (young_of_zero _ rfl)
      refine ⟨List.pairwise_append.mpr ⟨front, inserted.sorted, ?_⟩, ?_⟩
      · intro x xIn y yIn
        rcases (mem_insertTimer _ _ _).mp yIn with rfl | yIn
        · exact across x xIn t (by simp)
        · exact across x xIn y (by simp [yIn])
      · intro x xIn
        rcases List.mem_append.mp xIn with xIn | xIn
        · exact ordered.young x (by simp [xIn])
        · exact inserted.young x xIn

theorem Sweep.steps_ordered (n : Nat) (w : Sweep) (ordered : Ordered w.all) :
    Ordered (w.steps n).all := by
  induction n generalizing w with
  | zero => exact ordered
  | succ n ih => exact ih w.step (w.step_ordered ordered)

@[simp] theorem Sweep.step_of_nil (w : Sweep) (ended : w.todo = []) : w.step = w := by
  simp [step, ended]

@[simp] theorem Sweep.steps_of_nil (n : Nat) (w : Sweep) (ended : w.todo = []) : w.steps n = w := by
  induction n with
  | zero => rfl
  | succ n ih => rw [steps, w.step_of_nil ended, ih]

end BTServer.Timer
