import BTServer.Shared.Outcome
import Mathlib.Data.List.Forall2

set_option autoImplicit false

-- Calls whose state is a log that they only add to.
namespace BTServer

namespace Outcome

variable {ω : Type}

def follow (first second : Outcome (List ω) Unit) : Outcome (List ω) Unit :=
  first.andThen fun _ log =>
    match second with
    | .done _ more => .done () (log ++ more)
    | .fault more => .fault (log ++ more)
    | .crash more => .crash (log ++ more)
    | .timeout more => .timeout (log ++ more)

def inOrder : List (Outcome (List ω) Unit) → Outcome (List ω) Unit
  | [] => .done () []
  | first :: later => first.follow (inOrder later)

theorem final_done_follow (log : List ω) (second : Outcome (List ω) Unit) :
    ((done () log).follow second).final = log ++ second.final := by
  cases second <;> rfl

theorem mem_final_follow {first second : Outcome (List ω) Unit} {x : ω}
    (logged : x ∈ (first.follow second).final) : x ∈ first.final ∨ x ∈ second.final := by
  cases first with
  | done _ log =>
    rw [final_done_follow] at logged
    exact List.mem_append.mp logged
  | fault log => exact .inl logged
  | crash log => exact .inl logged
  | timeout log => exact .inl logged

/-- The call returns, and what it logs is good if and only if `cond` holds. -/
def Tells (call : Outcome (List ω) Unit) (good : ω → Prop) (cond : Prop) : Prop :=
  ∃ log, call = .done () log ∧ ((∀ x ∈ log, good x) ↔ cond)

section Tells

variable {good : ω → Prop} {P Q : Prop}

theorem tells_nothing : Tells (done () []) good True := ⟨[], rfl, by simp⟩

theorem tells_one {x : ω} (fixed : good x ↔ P) : Tells (done () [x]) good P :=
  ⟨[x], rfl, by simpa using fixed⟩

theorem Tells.congr {call : Outcome (List ω) Unit} (tells : call.Tells good P) (same : P ↔ Q) :
    call.Tells good Q := by
  obtain ⟨log, returned, fits⟩ := tells
  exact ⟨log, returned, fits.trans same⟩

theorem Tells.follow {first second : Outcome (List ω) Unit} (here : first.Tells good P)
    (later : second.Tells good Q) : (first.follow second).Tells good (P ∧ Q) := by
  obtain ⟨log, rfl, fits⟩ := here
  obtain ⟨more, rfl, fits'⟩ := later
  exact ⟨log ++ more, rfl, by rw [List.forall_mem_append, fits, fits']⟩

theorem tells_inOrder {calls : List (Outcome (List ω) Unit)} {conds : List Prop}
    (each : List.Forall₂ (fun call cond => call.Tells good cond) calls conds) :
    (inOrder calls).Tells good (conds.foldr And True) := by
  induction each with
  | nil => exact tells_nothing
  | cons here later ih => exact here.follow ih

/-- What the call logs, to its end or to where it was stopped, is good if and only if `cond`
holds. -/
def Logs (call : Outcome (List ω) Unit) (good : ω → Prop) (cond : Prop) : Prop :=
  (∀ x ∈ call.final, good x) ↔ cond

theorem Logs.congr {call : Outcome (List ω) Unit} (logs : call.Logs good P) (same : P ↔ Q) :
    call.Logs good Q := logs.trans same

theorem Tells.logs {call : Outcome (List ω) Unit} (tells : call.Tells good P) :
    call.Logs good P := by
  obtain ⟨log, rfl, fits⟩ := tells
  exact fits

theorem Tells.then_logs {first second : Outcome (List ω) Unit} (here : first.Tells good P)
    (later : second.Logs good Q) : (first.follow second).Logs good (P ∧ Q) := by
  obtain ⟨log, rfl, fits⟩ := here
  rw [Logs, final_done_follow, List.forall_mem_append, fits]
  exact and_congr_right' later

theorem Logs.then_fixed {first second : Outcome (List ω) Unit} (here : first.Logs good P)
    (later : second.Tells good True) : (first.follow second).Logs good P := by
  obtain ⟨log, rfl, fits⟩ := later
  cases first with
  | done _ before =>
    rw [Logs, final_done_follow, List.forall_mem_append]
    exact (and_congr here fits).trans (iff_of_eq (and_true P))
  | fault before => exact here
  | crash before => exact here
  | timeout before => exact here

end Tells

def Marks {β : Type} (call : Outcome (List ω) Unit) (mark : ω → Option β) (marks : List β) : Prop :=
  ∃ log, call = .done () log ∧ log.filterMap mark = marks

section Marks

variable {β : Type} {mark : ω → Option β}

theorem marks_nothing : Marks (done () []) mark [] := ⟨[], rfl, rfl⟩

theorem marks_none {x : ω} (none : mark x = none) : Marks (done () [x]) mark [] :=
  ⟨[x], rfl, by simp [none]⟩

theorem marks_some {x : ω} {b : β} (found : mark x = some b) : Marks (done () [x]) mark [b] :=
  ⟨[x], rfl, by simp [found]⟩

theorem Marks.congr {call : Outcome (List ω) Unit} {marks marks' : List β}
    (found : call.Marks mark marks) (same : marks = marks') : call.Marks mark marks' := same ▸ found

theorem Marks.follow {first second : Outcome (List ω) Unit} {marks more : List β}
    (here : first.Marks mark marks) (later : second.Marks mark more) :
    (first.follow second).Marks mark (marks ++ more) := by
  obtain ⟨log, rfl, found⟩ := here
  obtain ⟨log', rfl, found'⟩ := later
  exact ⟨log ++ log', rfl, by rw [List.filterMap_append, found, found']⟩

theorem marks_inOrder {calls : List (Outcome (List ω) Unit)} {marks : List (List β)}
    (each : List.Forall₂ (fun call found => call.Marks mark found) calls marks) :
    (inOrder calls).Marks mark marks.flatten := by
  induction each with
  | nil => exact marks_nothing
  | cons here later ih => exact here.follow ih

end Marks

end Outcome

end BTServer
