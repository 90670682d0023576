import BTServer.Shared.Search
import Mathlib.Data.Finset.Card
import Mathlib.Data.Fintype.Defs
import Mathlib.Data.Set.Insert
import Mathlib.Logic.Relation

set_option autoImplicit false

-- Where a search does not end: it goes round along links that are never marked.
namespace BTServer.Net

open Outcome

variable {α : Type}

/-- What the children of `t` lead to, along children and links, where the search stops at what is
marked. -/
inductive Below (net : Net α) (marked : List α) (t : α) : α → Prop where
  | child {v : α} (edge : v ∈ net.children t) (new : v ∉ marked) : Below net marked t v
  | further {u v : α} (before : Below net marked t u) (edge : v ∈ net.children u)
      (new : v ∉ marked) : Below net marked t v
  | link {u m : α} (before : Below net marked t u) (edge : net.link u = .onto m)
      (new : m ∉ marked) : Below net marked t m

def Intact (net : Net α) (marked : List α) (t : α) : Prop :=
  ∀ u, net.Below marked t u → net.link u ≠ .broken

/-- A walk from `root` to `t`. The nodes in `marked` have been come to as children. Where it goes
on along a link, the children have been searched before; what was below them is in `passed`. It
comes to nothing that is marked or passed. -/
inductive Walk (net : Net α) (root : α) : List α → Set α → α → Prop where
  | start : Walk net root [root] ∅ root
  | child {marked : List α} {passed : Set α} {t v : α} (before : Walk net root marked passed t)
      (edge : v ∈ net.children t) (new : v ∉ marked) (apart : v ∉ passed) :
      Walk net root (v :: marked) passed v
  | link {marked : List α} {passed : Set α} {t m : α} (before : Walk net root marked passed t)
      (edge : net.link t = .onto m) (intact : net.Intact marked t) (new : m ∉ marked)
      (apart : m ∉ passed ∪ {u | net.Below marked t u}) :
      Walk net root marked (passed ∪ {u | net.Below marked t u}) m

/-- Nodes whose links stay among them and that the search of their children never comes to. -/
structure Ring (net : Net α) (marked : List α) (passed ring : Set α) : Prop where
  links : ∀ c ∈ ring, ∃ m ∈ ring, net.link c = .onto m
  new : ∀ c ∈ ring, c ∉ marked
  apart : ∀ c ∈ ring, c ∉ passed
  alone : ∀ c ∈ ring, ∀ d ∈ ring, ¬ net.Below marked c d
  intact : ∀ c ∈ ring, net.Intact marked c

def Trap (net : Net α) (root : α) (marked : List α) : Prop :=
  ∃ passed t ring, net.Walk root marked passed t ∧ t ∈ ring ∧ net.Ring marked passed ring

structure Same (net net' : Net α) : Prop where
  children : ∀ t v, v ∈ net.children t ↔ v ∈ net'.children t
  link : net.link = net'.link

section Same

variable {net net' : Net α}

theorem Same.symm (same : net.Same net') : net'.Same net :=
  ⟨fun t v => (same.children t v).symm, same.link.symm⟩

theorem Same.below (same : net.Same net') {marked : List α} {t u : α}
    (below : net.Below marked t u) : net'.Below marked t u := by
  induction below with
  | child edge new => exact .child ((same.children _ _).mp edge) new
  | further _ edge new ih => exact .further ih ((same.children _ _).mp edge) new
  | link _ edge new ih => exact .link ih (same.link ▸ edge) new

theorem Same.below_iff (same : net.Same net') (marked : List α) (t u : α) :
    net.Below marked t u ↔ net'.Below marked t u := ⟨same.below, same.symm.below⟩

theorem Same.intact (same : net.Same net') {marked : List α} {t : α}
    (intact : net.Intact marked t) : net'.Intact marked t := by
  intro u below
  rw [← same.link]
  exact intact u (same.symm.below below)

theorem Same.walk (same : net.Same net') {root t : α} {marked : List α} {passed : Set α}
    (walk : net.Walk root marked passed t) : net'.Walk root marked passed t := by
  induction walk with
  | start => exact .start
  | child _ edge new apart ih => exact .child ih ((same.children _ _).mp edge) new apart
  | link _ edge intact new apart ih =>
    simp only [same.below_iff] at apart ⊢
    exact .link ih (same.link ▸ edge) (same.intact intact) new apart

theorem Same.trap (same : net.Same net') {root : α} {marked : List α}
    (trap : net.Trap root marked) : net'.Trap root marked := by
  obtain ⟨passed, t, ring, walk, here, round⟩ := trap
  refine ⟨passed, t, ring, same.walk walk, here, ?_, round.new, round.apart, ?_, ?_⟩
  next => exact same.link ▸ round.links
  next => exact fun c here d there below => round.alone c here d there (same.symm.below below)
  next => exact fun c here => same.intact (round.intact c here)

end Same

structure Reach (net : Net α) (marked : List α) (reach : Set α) : Prop where
  child : ∀ u ∈ reach, ∀ v ∈ net.children u, v ∉ marked → v ∈ reach
  link : ∀ u ∈ reach, ∀ m, net.link u = .onto m → m ∉ marked → m ∈ reach

theorem below_reach (net : Net α) (marked : List α) (t : α) :
    net.Reach marked {u | net.Below marked t u} where
  child _ before _ edge new := .further before edge new
  link _ before _ edge new := .link before edge new

def within (net : Net α) (reach : Set α) (marked : List α) : Post (List α) Unit where
  done _ marked' := marked ⊆ marked' ∧ ∀ x ∈ marked', x ∈ marked ∨ x ∈ reach
  fault := ∃ u ∈ reach, net.link u = .broken
  crash := False
  timeout := True

section Trapped

variable {net : Net α}

section Within

variable {reach : Set α} {marked marked₁ marked₂ : List α}

theorem within_trans (first : (net.within reach marked).done () marked₁)
    (second : (net.within reach marked₁).done () marked₂) :
    (net.within reach marked).done () marked₂ := by
  refine ⟨List.Subset.trans first.1 second.1, fun x member => ?_⟩
  rcases second.2 x member with old | here
  next => exact first.2 x old
  next => exact .inr here

theorem within_child {v : α} (inside : v ∈ reach)
    (done : (net.within reach (v :: marked)).done () marked₁) :
    (net.within reach marked).done () marked₁ := by
  refine ⟨fun x member => done.1 (List.mem_cons_of_mem v member), fun x member => ?_⟩
  rcases done.2 x member with old | here
  next =>
    rcases List.mem_cons.mp old with rfl | old
    next => exact .inr inside
    next => exact .inl old
  next => exact .inr here

end Within

variable [DecidableEq α]

theorem visitAll_within {visit : α → List α → Outcome (List α) Unit} {base : List α}
    {reach : Set α}
    (each : ∀ v ∈ reach, ∀ marked, base ⊆ marked → (visit v marked).Sat (net.within reach marked))
    (vs marked : List α) (more : base ⊆ marked) (reached : ∀ v ∈ vs, v ∉ base → v ∈ reach) :
    (visitAll visit vs marked).Sat (net.within reach marked) := by
  induction vs generalizing marked with
  | nil => exact ⟨List.Subset.refl _, fun x member => .inl member⟩
  | cons v vs ih =>
    rw [List.forall_mem_cons] at reached
    rw [visitAll]
    split
    next => exact ih marked more reached.2
    next new =>
      have inside : v ∈ reach := reached.1 fun old => new (more old)
      have wider : base ⊆ v :: marked := List.subset_cons_of_subset v more
      refine Sat.andThen (each v inside (v :: marked) wider) ?_ id id id
      intro _ marked₁ done
      refine Sat.mono (ih marked₁ (List.Subset.trans wider done.1) reached.2) ?_ id id id
      exact fun _ marked₂ done' => within_trans (within_child inside done) done'

theorem visit_within {base : List α} {reach : Set α} (closed : net.Reach base reach) (fuel : Nat)
    {t : α} (inside : t ∈ reach) {marked : List α} (more : base ⊆ marked) :
    (net.visit fuel t marked).Sat (net.within reach marked) := by
  induction fuel generalizing t marked with
  | zero => trivial
  | succ fuel ih =>
    rw [visit]
    refine Sat.andThen (visitAll_within (fun v here marked more => ih here more) _ marked more
      (closed.child t inside)) ?_ id id id
    intro _ marked₁ done
    cases edge : net.link t with
    | none =>
      rw [follow_none edge]
      exact done
    | broken =>
      rw [follow_broken edge]
      exact ⟨t, inside, edge⟩
    | onto m =>
      by_cases known : m ∈ marked₁
      next =>
        rw [follow_marked edge known]
        exact done
      next =>
        rw [follow_new edge known]
        have more₁ := List.Subset.trans more done.1
        have there := closed.link t inside m edge fun old => known (more₁ old)
        exact Sat.mono (ih there more₁) (fun _ marked₂ done' => within_trans done done') id id id

theorem children_within (fuel : Nat) (t : α) {base marked : List α} (more : base ⊆ marked) :
    (visitAll (net.visit fuel) (net.children t) marked).Sat
      (net.within {u | net.Below base t u} marked) :=
  visitAll_within (fun _ here _ more => visit_within (net.below_reach base t) fuel here more) _ _
    more fun _ edge new => .child edge new

-- The earlier a node was marked, the further ahead it is.
def rank (marked : List α) (v : α) : Nat := marked.reverse.idxOf v

/-- The children that are in `marked` come before the others, in the order in which they were
marked. -/
def Arranged (net : Net α) (marked : List α) : Prop :=
  ∀ t, (net.children t).Pairwise fun u v => rank marked u ≤ rank marked v

theorem mem_of_rank_le {marked final : List α} {u v : α} (part : v :: marked <:+ final)
    (new : v ∉ marked) (le : rank final u ≤ rank final v) : u ∈ v :: marked := by
  obtain ⟨later, rfl⟩ := part
  by_contra other
  rw [List.mem_cons, not_or] at other
  have place (x : α) (out : x ∉ marked) : rank (later ++ v :: marked) x =
      marked.length + (v :: later.reverse).idxOf x := by
    rw [rank, List.reverse_append, List.reverse_cons, List.append_assoc,
      List.idxOf_append_of_notMem (by simpa using out), List.length_reverse]
    rfl
  rw [place u other.2, place v new, List.idxOf_cons_self, List.idxOf_cons_ne _ (Ne.symm other.1)]
    at le
  omega

theorem visitAll_first (visit : α → List α → Outcome (List α) Unit) {base final : List α} {v : α}
    (part : v :: base <:+ final) (fresh : v ∉ base) {vs marked : List α}
    (arranged : vs.Pairwise fun u v => rank final u ≤ rank final v) (edge : v ∈ vs)
    (more : base ⊆ marked) (new : v ∉ marked) :
    ∃ later, visitAll visit vs marked =
      (visit v (v :: marked)).andThen fun _ marked => visitAll visit later marked := by
  induction vs with
  | nil => cases edge
  | cons u us ih =>
    rw [List.pairwise_cons] at arranged
    rw [visitAll]
    by_cases same : u = v
    next =>
      subst same
      exact ⟨us, by rw [if_neg new]⟩
    next =>
      have later : v ∈ us := (List.mem_cons.mp edge).resolve_left (Ne.symm same)
      have before := mem_of_rank_le part fresh (arranged.1 v later)
      rw [if_pos (more ((List.mem_cons.mp before).resolve_left same))]
      exact ih arranged.2 later

theorem ring_stops {base : List α} {passed ring : Set α} (round : net.Ring base passed ring)
    (fuel : Nat) {c : α} (here : c ∈ ring) {marked : List α} (more : base ⊆ marked)
    (free : ∀ x ∈ marked, x ∉ ring) : (net.visit fuel c marked).Sat stopped := by
  induction fuel generalizing c marked with
  | zero => trivial
  | succ fuel ih =>
    rw [visit]
    refine Sat.andThen (children_within fuel c more) ?_ ?_ id id
    next =>
      rintro - marked₁ ⟨kept, added⟩
      have free₁ : ∀ x ∈ marked₁, x ∉ ring := by
        intro x member inside
        rcases added x member with old | below
        next => exact free x old inside
        next => exact round.alone c here x inside below
      obtain ⟨m, there, edge⟩ := round.links c here
      rw [follow_new edge fun old => free₁ m old there]
      exact ih there (List.Subset.trans more kept) free₁
    next =>
      rintro ⟨u, below, broken⟩
      exact round.intact c here u below broken

theorem walk_stops {root : α} {final base : List α} {passed : Set α} {t : α}
    (walk : net.Walk root base passed t) (arranged : net.Arranged final) (part : base <:+ final)
    (stops : ∀ fuel marked, base ⊆ marked → (∀ x ∈ marked, x ∈ base ∨ x ∈ passed) →
      (net.visit fuel t marked).Sat stopped) (fuel : Nat) :
    (net.visit fuel root [root]).Sat stopped := by
  induction walk with
  | start => exact stops fuel [root] (List.Subset.refl _) fun x member => .inl member
  | @child base passed t v before edge new apart ih =>
    refine ih ((List.suffix_cons v base).trans part) fun fuel marked more only => ?_
    cases fuel with
    | zero => trivial
    | succ fuel =>
      -- The children before `v` are in `base`; they are marked and passed over.
      have fresh : v ∉ marked := fun old => (only v old).elim new apart
      obtain ⟨later, first⟩ := visitAll_first (net.visit fuel) part new (arranged t) edge more
        fresh
      rw [visit, first, andThen_andThen]
      refine Sat.andThen (stops fuel (v :: marked) (List.cons_subset_cons v more) ?_)
        (fun _ _ none => none.elim) id id id
      intro x member
      rcases List.mem_cons.mp member with rfl | old
      next => exact .inl List.mem_cons_self
      next => exact (only x old).imp_left (List.mem_cons_of_mem v)
  | @link base passed t m before edge intact new apart ih =>
    refine ih part fun fuel marked more only => ?_
    cases fuel with
    | zero => trivial
    | succ fuel =>
      -- Searching the children marks nothing but what is below them, so the link is new.
      rw [visit]
      refine Sat.andThen (children_within fuel t more) ?_ ?_ id id
      next =>
        rintro - marked₁ ⟨kept, added⟩
        have only₁ : ∀ x ∈ marked₁, x ∈ base ∨ x ∈ passed ∪ {u | net.Below base t u} := by
          intro x member
          rcases added x member with old | below
          next => exact (only x old).imp_right .inl
          next => exact .inr (.inr below)
        rw [follow_new edge fun old => (only₁ m old).elim new apart]
        exact stops fuel marked₁ (List.Subset.trans more kept) only₁
      next =>
        rintro ⟨u, below, broken⟩
        exact intact u below broken

theorem trap_stops {root : α} {marked : List α} (trap : net.Trap root marked)
    (arranged : net.Arranged marked) (fuel : Nat) :
    (net.visit fuel root [root]).Sat stopped := by
  obtain ⟨passed, t, ring, walk, here, round⟩ := trap
  refine walk_stops walk arranged (List.suffix_refl _) (fun fuel marked' more only => ?_) fuel
  refine ring_stops round fuel here more fun x member inside => ?_
  exact (only x member).elim (round.new x inside) (round.apart x inside)

end Trapped

section Endless

variable [DecidableEq α] {net : Net α}

theorem visitAll_ends_or (net : Net α) (vs marked : List α) :
    (Ends fun fuel => visitAll (net.visit fuel) vs marked) ∨
      ∃ v ∈ vs, ∃ marked₁, net.Leaves marked marked₁ ∧ v ∉ marked₁ ∧
        ¬ Ends (net.visit · v (v :: marked₁)) := by
  induction vs generalizing marked with
  | nil => exact .inl (Ends.const (by simp))
  | cons v vs ih =>
    simp only [visitAll]
    by_cases known : v ∈ marked
    next =>
      simp only [if_pos known]
      refine (ih marked).imp_right ?_
      rintro ⟨u, later, stuck⟩
      exact ⟨u, List.mem_cons_of_mem v later, stuck⟩
    next =>
      simp only [if_neg known]
      by_cases ends : Ends (net.visit · v (v :: marked))
      next =>
        by_cases all : ∀ fuel result marked₁, net.visit fuel v (v :: marked) = .done result marked₁ →
            Ends fun fuel => visitAll (net.visit fuel) vs marked₁
        next =>
          exact .inl (ends.andThen (net.visit_grows v _)
            (fun _ marked₁ => net.visitAll_grows vs marked₁) all)
        next =>
          push Not at all
          obtain ⟨fuel, _, marked₁, ended, endless⟩ := all
          obtain ⟨first, shut⟩ := visit_leaves ended
          obtain ⟨u, later, marked₂, leaves, stuck⟩ := (ih marked₁).resolve_left endless
          exact .inr ⟨u, List.mem_cons_of_mem v later, marked₂, (first.child shut).trans leaves,
            stuck⟩
      next =>
        exact .inr ⟨v, List.mem_cons_self, marked, .refl marked, known, ends⟩

theorem endless_after {t : α} {marked : List α} (endless : ¬ Ends (net.visit · t marked))
    (ends : Ends fun fuel => visitAll (net.visit fuel) (net.children t) marked) :
    ∃ fuel m marked₁, visitAll (net.visit fuel) (net.children t) marked = .done () marked₁ ∧
      net.link t = .onto m ∧ m ∉ marked₁ ∧ ¬ Ends (net.visit · m marked₁) := by
  by_contra none
  push Not at none
  refine endless (Ends.after ?_)
  simp only [visit]
  refine ends.andThen (net.visitAll_grows _ marked) (fun _ marked₁ fuel more =>
    net.follow_extends (net.visit_extends fuel more) t marked₁) fun fuel _ marked₁ ended => ?_
  cases edge : net.link t with
  | none => simpa only [follow_none edge] using Ends.const (by simp)
  | broken => simpa only [follow_broken edge] using Ends.const (by simp)
  | onto m =>
    by_cases known : m ∈ marked₁
    next => simpa only [follow_marked edge known] using Ends.const (by simp)
    next => simpa only [follow_new edge known] using none fuel m marked₁ ended edge known

theorem endless_cases {t : α} {marked : List α} (endless : ¬ Ends (net.visit · t marked)) :
    (∃ v ∈ net.children t, ∃ marked₁, net.Leaves marked marked₁ ∧ v ∉ marked₁ ∧
        ¬ Ends (net.visit · v (v :: marked₁))) ∨
      ∃ m marked₁, net.Leaves marked marked₁ ∧ net.children t ⊆ marked₁ ∧
        net.link t = .onto m ∧ m ∉ marked₁ ∧ ¬ Ends (net.visit · m marked₁) := by
  rcases net.visitAll_ends_or (net.children t) marked with ends | stuck
  next =>
    obtain ⟨fuel, m, marked₁, ended, edge, new, further⟩ := endless_after endless ends
    obtain ⟨leaves, all⟩ := visitAll_leaves (fun _ _ _ => visit_leaves) ended
    exact .inr ⟨m, marked₁, leaves, all, edge, new, further⟩
  next => exact .inl stuck

theorem endless_link {t : α} {marked : List α} (endless : ¬ Ends (net.visit · t marked))
    (old : net.children t ⊆ marked) :
    ∃ m, net.link t = .onto m ∧ m ∉ marked ∧ ¬ Ends (net.visit · m marked) := by
  have all (fuel : Nat) : visitAll (net.visit fuel) (net.children t) marked = .done () marked :=
    visitAll_marked old
  obtain ⟨fuel, m, marked₁, ended, edge, new, further⟩ :=
    endless_after endless ⟨0, by simp [all]⟩
  rw [all] at ended
  cases ended
  exact ⟨m, edge, new, further⟩

/-- What the search knows where it has come to: everything marked or passed is shut, apart from
the nodes on the walk that it has not done with. -/
structure Known (net : Net α) (base : List α) (passed : Set α) (marked : List α) : Prop where
  kept : base ⊆ marked
  shut : ∀ x ∈ marked, x ∈ base ∨ net.Shut marked x
  passed : ∀ x ∈ passed, net.Shut marked x

section Known

variable {base marked marked₁ : List α} {passed : Set α} {t : α}

omit [DecidableEq α]

theorem Known.leaves (known : net.Known base passed marked) (leaves : net.Leaves marked marked₁) :
    net.Known base passed marked₁ where
  kept := List.Subset.trans known.kept leaves.kept
  shut x member := by
    rcases leaves.shut x member with old | shut
    next => exact (known.shut x old).imp_right fun shut => shut.mono leaves.kept
    next => exact .inr shut
  passed x member := (known.passed x member).mono leaves.kept

theorem Known.child (known : net.Known base passed marked) (v : α) :
    net.Known (v :: base) passed (v :: marked) where
  kept := List.cons_subset_cons v known.kept
  shut x member := by
    have more := List.subset_cons_self v marked
    rcases List.mem_cons.mp member with rfl | old
    next => exact .inl List.mem_cons_self
    next => exact (known.shut x old).imp (List.mem_cons_of_mem v) fun shut => shut.mono more
  passed x member := (known.passed x member).mono (List.subset_cons_self v marked)

theorem Known.below (known : net.Known base passed marked) (old : net.children t ⊆ marked) {u : α}
    (below : net.Below base t u) : net.Shut marked u := by
  induction below with
  | child edge new => exact (known.shut _ (old edge)).resolve_left new
  | further _ edge new ih => exact (known.shut _ (ih.children edge)).resolve_left new
  | link _ edge new ih =>
    rcases ih.link_cases edge with member | shut
    next => exact (known.shut _ member).resolve_left new
    next => exact shut

theorem Known.link (known : net.Known base passed marked) (old : net.children t ⊆ marked) :
    net.Known base (passed ∪ {u | net.Below base t u}) marked where
  kept := known.kept
  shut := known.shut
  passed x member := member.elim (known.passed x) (known.below old)

end Known

structure Lost (net : Net α) (root : α) (base : List α) (passed : Set α) (marked : List α)
    (t : α) : Prop where
  walk : net.Walk root base passed t
  known : net.Known base passed marked
  endless : ¬ Ends (net.visit · t marked)

section Lost

variable {root : α} {base marked marked₁ : List α} {passed : Set α} {t : α}

theorem Lost.child (lost : net.Lost root base passed marked t) {v : α} (edge : v ∈ net.children t)
    (leaves : net.Leaves marked marked₁) (new : v ∉ marked₁)
    (endless : ¬ Ends (net.visit · v (v :: marked₁))) :
    net.Lost root (v :: base) passed (v :: marked₁) v where
  walk := by
    have known := lost.known.leaves leaves
    refine .child lost.walk edge (fun old => new (known.kept old)) fun old => endless ?_
    exact ((known.passed v old).mono (List.subset_cons_self v marked₁)).ends
  known := (lost.known.leaves leaves).child v
  endless := endless

theorem Lost.link (lost : net.Lost root base passed marked t) {m : α}
    (edge : net.link t = .onto m) (leaves : net.Leaves marked marked₁)
    (old : net.children t ⊆ marked₁) (new : m ∉ marked₁)
    (endless : ¬ Ends (net.visit · m marked₁)) :
    net.Lost root base (passed ∪ {u | net.Below base t u}) marked₁ m := by
  have known := lost.known.leaves leaves
  have passes := known.link old
  refine ⟨.link lost.walk edge (fun u below => (known.below old below).intact)
    (fun member => new (known.kept member)) (fun member => endless ?_), passes, endless⟩
  exact (passes.passed m member).ends

theorem Lost.follow (lost : net.Lost root base passed marked t)
    (all : ∀ passed c, net.Lost root base passed marked c → net.children c ⊆ marked) {c : α}
    (links : Relation.ReflTransGen (fun a b => net.link a = .onto b) t c) :
    ∃ passed, net.Lost root base passed marked c := by
  induction links with
  | refl => exact ⟨passed, lost⟩
  | @tail b c _ edge ih =>
    obtain ⟨passed, here⟩ := ih
    have old := all passed b here
    obtain ⟨m, link, new, endless⟩ := endless_link here.endless old
    rw [edge] at link
    cases link
    exact ⟨_, here.link edge (.refl marked) old new endless⟩

theorem Lost.ring (lost : net.Lost root base passed marked t)
    (all : ∀ passed c, net.Lost root base passed marked c → net.children c ⊆ marked) :
    net.Trap root base := by
  let ring : Set α := {c | Relation.TransGen (fun a b => net.link a = .onto b) t c}
  have round (c : α) (here : c ∈ ring) :
      c ∉ marked ∧ ∃ passed, net.Lost root base passed marked c := by
    obtain ⟨b, links, edge⟩ := Relation.TransGen.tail'_iff.mp here
    obtain ⟨passed, last⟩ := lost.follow all links
    obtain ⟨m, link, new, -⟩ := endless_link last.endless (all passed b last)
    rw [edge] at link
    cases link
    exact ⟨new, lost.follow all (links.tail edge)⟩
  have old := all passed t lost
  obtain ⟨m, edge, new, endless⟩ := endless_link lost.endless old
  have first := lost.link edge (.refl marked) old new endless
  refine ⟨_, m, ring, first.walk, .single edge, ?_, ?_, ?_, ?_, ?_⟩
  next =>
    intro c here
    obtain ⟨-, passed, lost'⟩ := round c here
    obtain ⟨m', link, -⟩ := endless_link lost'.endless (all passed c lost')
    exact ⟨m', here.tail link, link⟩
  next => exact fun c here member => (round c here).1 (lost.known.kept member)
  next =>
    intro c here member
    obtain ⟨-, passed, lost'⟩ := round c here
    exact lost'.endless (first.known.passed c member).ends
  next =>
    intro c here d there below
    obtain ⟨-, passed, lost'⟩ := round c here
    obtain ⟨-, passed', lost''⟩ := round d there
    exact lost''.endless (lost'.known.below (all passed c lost') below).ends
  next =>
    intro c here u below
    obtain ⟨-, passed, lost'⟩ := round c here
    exact (lost'.known.below (all passed c lost') below).intact

theorem unmarked_shrinks [Fintype α] (kept : marked ⊆ marked₁) {x : α} (new : x ∉ marked)
    (now : x ∈ marked₁) :
    (Finset.univ.filter (· ∉ marked₁)) ⊂ Finset.univ.filter (· ∉ marked) := by
  rw [Finset.ssubset_iff_of_subset]
  next => exact ⟨x, by simpa using new, by simpa using now⟩
  next =>
    intro y member
    simp only [Finset.mem_filter, Finset.mem_univ, true_and] at member ⊢
    exact fun old => member (kept old)

theorem Lost.trap [Fintype α] (lost : net.Lost root base passed marked t) :
    ∃ base, net.Trap root base := by
  -- Either the search goes round without a new mark, or it marks something and goes on.
  induction left : Finset.univ.filter (· ∉ marked) using Finset.strongInduction
    generalizing base passed marked t with
  | H unmarked ih =>
    subst left
    by_cases all : ∀ passed c, net.Lost root base passed marked c → net.children c ⊆ marked
    next => exact ⟨base, lost.ring all⟩
    next =>
      push Not at all
      obtain ⟨passed, c, here, some⟩ := all
      rcases endless_cases here.endless with ⟨v, edge, marked₁, leaves, new, endless⟩ |
        ⟨m, marked₁, leaves, old, edge, new, endless⟩
      next =>
        refine ih _ (unmarked_shrinks ?_ (fun known => new (leaves.kept known))
          List.mem_cons_self) (here.child edge leaves new endless) rfl
        exact List.subset_cons_of_subset v leaves.kept
      next =>
        obtain ⟨x, child, fresh⟩ := Set.not_subset.mp some
        exact ih _ (unmarked_shrinks leaves.kept fresh (old child))
          (here.link edge leaves old new endless) rfl

end Lost

theorem ends_of_free [Fintype α] {root : α} (free : ∀ marked, ¬ net.Trap root marked) :
    Ends (net.visit · root [root]) := by
  by_contra endless
  have known : net.Known [root] ∅ [root] :=
    ⟨List.Subset.refl _, fun _ member => .inl member, by simp⟩
  obtain ⟨base, trap⟩ := Lost.trap ⟨.start, known, endless⟩
  exact free base trap

end Endless

theorem free_of_acc {net : Net α} (linked : ∀ t, Acc (fun m c => net.link c = .onto m) t) {root : α}
    {marked : List α} : ¬ net.Trap root marked := by
  rintro ⟨passed, t, ring, -, here, round⟩
  induction linked t with
  | intro c _ ih =>
    obtain ⟨m, there, edge⟩ := round.links c here
    exact ih m edge there

end BTServer.Net
