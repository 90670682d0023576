import BTServer.Lua.TablePrint
import Mathlib.Data.Finset.Lattice.Fold
import Mathlib.Data.List.Sort

set_option autoImplicit false

namespace BTServer.Lua.TablePrint

open CString Outcome Net

variable {Ref : Type}

def Value.ref : Value Ref → Option Ref
  | .table t => some t
  | _ => none

def Listing.named (st : Listing Ref) : List Ref := st.tableList.map Prod.fst

variable [DecidableEq Ref]

/-- What `_list_table` follows: the tables in the fields, which get a name, and the metatables,
which get none. -/
def TableGraph.net (g : TableGraph Ref) : Net Ref where
  children t := (g.fields t).filterMap fun e => e.2.ref
  link t :=
    match g.getmetatable t with
    | .table m => .onto m
    | v => if v.isTrue then .broken else .none

theorem link_other (g : TableGraph Ref) {t : Ref} {v : Value Ref} (given : g.getmetatable t = v)
    (other : v.ref = none) : g.net.link t = if v.isTrue then .broken else .none := by
  cases v with
  | table m => cases other
  | _ => simp only [TableGraph.net, given]

theorem link_onto_iff (g : TableGraph Ref) (t m : Ref) :
    g.net.link t = .onto m ↔ g.getmetatable t = .table m := by
  cases given : g.getmetatable t with
  | table m' => simp [TableGraph.net, given]
  | _ =>
    rw [link_other g given rfl]
    split <;> simp

section Search

variable (g : TableGraph Ref)
  {list : Value Ref → Nat → Listing Ref → Outcome (Listing Ref) Bytes}
  {visit : Ref → List Ref → Outcome (List Ref) Unit}
  (each : ∀ t level st, (list (.table t) level st).image Listing.named = visit t st.named)

theorem name_cases (st : Listing Ref) (t : Ref) :
    (t ∈ st.named ∧ ∃ tName, st.name (.table t) = some tName) ∨
      (t ∉ st.named ∧ st.name (.table t) = none) := by
  cases named : st.name (.table t) with
  | none =>
    refine .inr ⟨fun known => ?_, rfl⟩
    obtain ⟨e, member, rfl⟩ := List.mem_map.mp known
    have other := List.lookup_eq_none_iff.mp named e member
    simp at other
  | some tName =>
    obtain ⟨before, after, split, -⟩ := List.lookup_eq_some_iff.mp named
    exact .inl ⟨by simp [Listing.named, split], tName, rfl⟩

include each in
theorem listFields_image (level : Nat) (indent : Bytes) (fields : List (Value Ref × Value Ref))
    (ret : Bytes) (st : Listing Ref) :
    (listFields g list level indent fields ret st).image Listing.named =
      visitAll visit (fields.filterMap fun e => e.2.ref) st.named := by
  induction fields generalizing ret st with
  | nil => rfl
  | cons e fields ih =>
    obtain ⟨k, v⟩ := e
    cases v with
    | table t =>
      rw [List.filterMap_cons, listFields]
      rcases name_cases st t with ⟨known, tName, named⟩ | ⟨new, named⟩
      next =>
        simp only [Value.ref, visitAll, if_pos known, named]
        exact ih _ st
      next =>
        simp only [Value.ref, visitAll, if_neg new, named]
        rw [image_andThen _ fun inner st => ih _ st, each]
        rfl
    | nil => exact ih _ st
    | boolean b => exact ih _ st
    | string s => exact ih _ st
    | other kind id => exact ih _ st

include each in
theorem listMetatable_image (fails : ∀ v level st, v.ref = none → list v level st = .fault st.enter)
    (level : Nat) (indent : Bytes) (t : Ref) (ret : Bytes) (st : Listing Ref) :
    (listMetatable g list level indent t ret st).image Listing.named =
      g.net.follow visit t st.named := by
  have locked (v : Value Ref) (given : g.getmetatable t = v) (other : v.ref = none) :
      (listMetatable g list level indent t ret st).image Listing.named =
        g.net.follow visit t st.named := by
    have link := link_other g given other
    rw [listMetatable, given]
    cases true : v.isTrue with
    | false =>
      rw [follow_none (by simpa [true] using link)]
      rfl
    | true =>
      have nameless : st.name v = none := by
        cases v with
        | table m => cases other
        | _ => rfl
      rw [follow_broken (by simpa [true] using link), if_pos rfl, nameless]
      dsimp only
      rw [fails v _ _ other]
      rfl
  cases given : g.getmetatable t with
  | table m =>
    have edge := (link_onto_iff g t m).mpr given
    rw [listMetatable]
    rcases name_cases st m with ⟨known, tName, named⟩ | ⟨new, named⟩
    next =>
      rw [follow_marked edge known]
      simp [given, Value.isTrue, named, image]
    next =>
      rw [follow_new edge new]
      simp only [given, Value.isTrue, if_true, named]
      rw [image_andThen_done, each]
  | nil => exact locked _ given rfl
  | boolean b => exact locked _ given rfl
  | string s => exact locked _ given rfl
  | other kind id => exact locked _ given rfl

omit each in
theorem listTable_fails (fuel : Nat) (v : Value Ref) (level : Nat) (st : Listing Ref)
    (other : v.ref = none) : listTable g fuel v level st = .fault st.enter := by
  cases v with
  | table t => cases other
  | nil => cases fuel <;> rfl
  | boolean b => cases fuel <;> rfl
  | string s => cases fuel <;> rfl
  | other kind id => cases fuel <;> rfl

theorem listTable_image (fuel : Nat) (t : Ref) (level : Nat) (st : Listing Ref) :
    (listTable g fuel (.table t) level st).image Listing.named = g.net.visit fuel t st.named := by
  induction fuel generalizing t level st with
  | zero => rfl
  | succ fuel ih =>
    rw [listTable, visit, image_andThen _ fun ret st =>
      listMetatable_image g ih (listTable_fails g fuel) level _ t ret st, listFields_image g ih]
    rfl

end Search

section Fuel

variable (g : TableGraph Ref)
  {list list' : Value Ref → Nat → Listing Ref → Outcome (Listing Ref) Bytes}
  (each : ∀ v level st, (list v level st).Extends (list' v level st))

include each in
theorem listFields_extends (level : Nat) (indent : Bytes) (fields : List (Value Ref × Value Ref))
    (ret : Bytes) (st : Listing Ref) :
    (listFields g list level indent fields ret st).Extends
      (listFields g list' level indent fields ret st) := by
  induction fields generalizing ret st with
  | nil => exact .refl _
  | cons e fields ih =>
    obtain ⟨k, v⟩ := e
    cases v with
    | table t =>
      rw [listFields, listFields]
      cases st.name (.table t) with
      | some tName => exact ih _ st
      | none => exact (each _ _ _).andThen fun _ st => ih _ st
    | nil => exact ih _ st
    | boolean b => exact ih _ st
    | string s => exact ih _ st
    | other kind id => exact ih _ st

include each in
theorem listMetatable_extends (level : Nat) (indent : Bytes) (t : Ref) (ret : Bytes)
    (st : Listing Ref) :
    (listMetatable g list level indent t ret st).Extends
      (listMetatable g list' level indent t ret st) := by
  unfold listMetatable
  dsimp only
  split
  next =>
    cases st.name (g.getmetatable t) with
    | some tName => exact .refl _
    | none => exact (each _ _ _).andThen fun _ _ => .refl _
  next => exact .refl _

theorem listTable_extends (fuel more : Nat) (v : Value Ref) (level : Nat) (st : Listing Ref) :
    (listTable g fuel v level st).Extends (listTable g (fuel + more) v level st) := by
  induction fuel generalizing v level st with
  | zero =>
    cases v with
    | table t => exact .inl ⟨st, rfl⟩
    | _ => exact .inr (by rw [listTable_fails g _ _ _ _ rfl, listTable_fails g _ _ _ _ rfl])
  | succ fuel ih =>
    cases v with
    | table t =>
      rw [Nat.add_right_comm, listTable, listTable]
      exact (listFields_extends g ih level _ _ [] _).andThen fun ret st =>
        listMetatable_extends g ih level _ t ret st
    | _ => exact .inr (by rw [listTable_fails g _ _ _ _ rfl, listTable_fails g _ _ _ _ rfl])

theorem tableTostring_grows (tb : Value Ref) : Grows (tableTostring g · tb) := by
  intro fuel more
  cases tb with
  | table t => exact (listTable_extends g fuel more _ 1 _).andThen fun _ _ => .refl _
  | _ => exact .refl _

end Fuel

structure Terminates {α : Type} (run : Nat → Outcome (Listing Ref) α) : Prop where
  ends : Ends run
  calls : ∃ bound, ∀ fuel, (run fuel).final.entered ≤ bound

omit [DecidableEq Ref] in
theorem terminates_of_ends {α : Type} {run : Nat → Outcome (Listing Ref) α} (grows : Grows run)
    (ends : Ends run) : Terminates run := by
  refine ⟨ends, ?_⟩
  obtain ⟨last, ended⟩ := ends
  let calls (fuel : Nat) : Nat := (run fuel).final.entered
  refine ⟨(Finset.range (last + 1)).sup calls, fun fuel => ?_⟩
  rcases Nat.lt_or_ge fuel (last + 1) with early | late
  next => exact Finset.le_sup (f := calls) (Finset.mem_range.mpr early)
  next =>
    obtain ⟨more, rfl⟩ := Nat.exists_eq_add_of_le (Nat.le_of_succ_le late)
    rw [grows.ended ended]
    exact Finset.le_sup (f := calls) (Finset.self_mem_range_succ last)

theorem terminates_iff (g : TableGraph Ref) (t : Ref) :
    (Terminates fun fuel => tableTostring g fuel (.table t)) ↔ Ends (g.net.visit · t [t]) := by
  have seen : (Ends fun fuel => tableTostring g fuel (.table t)) ↔ Ends (g.net.visit · t [t]) := by
    rw [← ends_image Listing.named]
    simp only [tableTostring, image_andThen_done, listTable_image]
    rfl
  exact ⟨fun terminates => seen.mp terminates.ends,
    fun ends => terminates_of_ends (tableTostring_grows g _) (seen.mpr ends)⟩

structure TableGraph.Reordered (g g' : TableGraph Ref) : Prop where
  fields : ∀ t, (g.fields t).Perm (g'.fields t)
  metatable : g'.metatable = g.metatable
  address : g'.address = g.address
  text : g'.text = g.text

section Order

variable {g g' : TableGraph Ref}

theorem TableGraph.Reordered.getmetatable (reordered : g.Reordered g') (t : Ref) :
    g'.getmetatable t = g.getmetatable t := by
  have rawget (m : Ref) (key : Value Ref) : g'.rawget m key = g.rawget m key := by
    rw [rawget, rawget, Keyed.last_shuffled key some ⟨reordered.fields m, g.distinct m⟩]
  simp only [TableGraph.getmetatable, reordered.metatable, rawget]

theorem TableGraph.Reordered.same (reordered : g.Reordered g') : g.net.Same g'.net where
  children t v := ((reordered.fields t).filterMap _).mem_iff
  link := by
    funext t
    simp only [net, reordered.getmetatable]

def TableGraph.arrange (g : TableGraph Ref) (named : List Ref) : TableGraph Ref :=
  let place (e : Value Ref × Value Ref) : Nat := (e.2.ref.map (rank named)).getD named.length
  let sort (fields : List (Value Ref × Value Ref)) : List (Value Ref × Value Ref) :=
    fields.mergeSort fun e e' => place e ≤ place e'
  have perm (fields : List (Value Ref × Value Ref)) : (sort fields).Perm fields :=
    List.mergeSort_perm _ _
  { g with
    fields := fun t => sort (g.fields t)
    distinct := fun t => ((perm _).map Prod.fst).nodup_iff.mpr (g.distinct t)
    present := fun t e member => g.present t e ((perm _).mem_iff.mp member)
    plain := fun t m given e member => g.plain t m given e ((perm _).mem_iff.mp member) }

theorem arrange_reordered (g : TableGraph Ref) (named : List Ref) :
    g.Reordered (g.arrange named) :=
  ⟨fun _ => (List.mergeSort_perm _ _).symm, rfl, rfl, rfl⟩

theorem arrange_arranged (g : TableGraph Ref) (named : List Ref) :
    (g.arrange named).net.Arranged named := by
  intro t
  refine List.Pairwise.filterMap _ ?_ (List.pairwise_mergeSort ?_ ?_ (g.fields t))
  next =>
    intro e e' before v here v' there
    simpa [here, there] using before
  next =>
    intro e₁ e₂ e₃ first second
    simp only [decide_eq_true_eq] at first second ⊢
    exact Nat.le_trans first second
  next =>
    intro e e'
    simpa using Nat.le_total _ _

end Order

/-- The printer ends in every order of the fields if and only if it can not be trapped: no walk
along fields and metatables leads into metatables that go round without one of them having got a
name. -/
theorem table_tostring_ends_iff [Fintype Ref] (g : TableGraph Ref) (t : Ref) :
    (∀ g', g.Reordered g' → Terminates fun fuel => tableTostring g' fuel (.table t)) ↔
      ¬ ∃ named, g.net.Trap t named := by
  constructor
  next =>
    rintro always ⟨named, trap⟩
    have reordered := arrange_reordered g named
    have ends := (terminates_iff _ t).mp (always _ reordered)
    exact stopped_not_ends
      (trap_stops (reordered.same.trap trap) (arrange_arranged g named)) ends
  next =>
    intro free g' reordered
    refine (terminates_iff g' t).mpr (ends_of_free fun named trap => free ⟨named, ?_⟩)
    exact reordered.same.symm.trap trap

theorem terminates_of_acyclic [Fintype Ref] (g : TableGraph Ref)
    (acyclic : ∀ t, Acc (fun m c => g.getmetatable c = .table m) t) (t : Ref) :
    Terminates fun fuel => tableTostring g fuel (.table t) := by
  refine (terminates_iff g t).mpr (ends_of_free fun named => free_of_acc fun c => ?_)
  exact Subrelation.accessible (fun {m c} edge => (link_onto_iff g c m).mp edge) (acyclic c)

-- A table whose metatable is its own metatable.
def selfMetatable : TableGraph (Fin 2) where
  fields _ := []
  metatable _ := some 1
  address t := if t = 0 then ascii "table: 0x10" else ascii "table: 0x20"
  text _ _ := []
  distinct := by simp
  present := by simp
  plain := by simp

theorem selfMetatable_trap : selfMetatable.net.Trap 0 [0] := by
  have nothing (t u : Fin 2) : ¬ selfMetatable.net.Below [0] t u := by
    intro below
    induction below with
    | child edge => cases edge
    | further _ edge => cases edge
    | link _ _ _ none => exact none
  have intact (t : Fin 2) : selfMetatable.net.Intact [0] t := fun u below => (nothing t u below).elim
  refine ⟨_, 1, {1}, .link .start rfl (intact 0) (by decide) (by simp [nothing]), rfl, ?_⟩
  exact ⟨by simp [TableGraph.net, TableGraph.getmetatable, selfMetatable, TableGraph.rawget],
    by simp, by simp [nothing], by simp [nothing], fun c _ => intact c⟩

theorem self_metatable_endless :
    ¬ Terminates fun fuel => tableTostring selfMetatable fuel (.table 0) := by
  rw [terminates_iff]
  exact stopped_not_ends (trap_stops selfMetatable_trap fun _ => List.Pairwise.nil)

end BTServer.Lua.TablePrint
