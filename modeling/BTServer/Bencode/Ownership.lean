import BTServer.Bencode.RoundTrip
import BTServer.Shared.Ledger

set_option autoImplicit false

namespace BTServer.Bencode

open CString Outcome Heap

def St.heap (st : St) : Heap := ⟨st.mallocs, st.freed⟩

@[simp] theorem heap_free (st : St) (blocks : List Nat) :
    (st.free blocks).heap = st.heap.free blocks := rfl

@[simp] theorem heap_print (st : St) (level : MsgLevel) (func : String) (line : Nat)
    (text : Bytes) : (st.print level func line text).heap = st.heap := rfl

theorem lEntriesFree_append (xs ys : List (LEntry BValue)) :
    lEntriesFree (xs ++ ys) = lEntriesFree xs ++ lEntriesFree ys := by
  induction xs with
  | nil => rfl
  | cons x xs ih => simp [lEntriesFree, ih]

theorem dEntriesFree_append (xs ys : List (DEntry BValue)) :
    dEntriesFree (xs ++ ys) = dEntriesFree xs ++ dEntriesFree ys := by
  induction xs with
  | nil => rfl
  | cons x xs ih => simp [dEntriesFree, ih]

@[simp] theorem free_list (l : BList) : (BValue.list l).free = bListFree l := rfl

@[simp] theorem free_dict (d : BDict) : (BValue.dict d).free = bDictFree d := rfl

def keeping {α : Type} (st : St) (before : List Nat) (frees : α → List Nat) :
    Post St (Option Nat × α) where
  done result st' := Balanced st.heap st'.heap before (frees result.2)
  fault := True
  crash := True
  timeout := True

theorem bStringParse_owns (env : Env) (st : St) (p : Nat) (target : BString)
    (empty : target.head = none) :
    (bStringParse env st p target).Sat (keeping st (bStringFree target) bStringFree) := by
  unfold bStringParse
  split
  next => trivial
  next =>
    split
    next => exact .refl _ _
    next =>
      dsimp only
      split
      next => exact .refl _ _
      next =>
        split
        next => exact .refl _ _
        next =>
          split
          next =>
            split
            next =>
              apply (balanced_malloc st.heap [target.node]).congr
              · simp [bStringFree, empty]
              · exact List.perm_append_comm
            next => trivial
          next => trivial

theorem bIntParse_owns (env : Env) (st : St) (p : Nat) (ret : BInt) :
    (bIntParse env st p ret).Sat (keeping st (bIntFree ret) bIntFree) := by
  unfold bIntParse
  split
  next => trivial
  next =>
    split
    next => exact .refl _ _
    next =>
      dsimp only
      split
      next => exact .refl _ _
      next =>
        split
        next => exact .refl _ _
        next => exact .refl _ _

def elementKeeping (st : St) (release : List Nat) : Post St Element where
  done element st' := match element with
    | .skipped => False
    | .rejected => Balanced st.heap st'.heap release []
    | .parsed _ v => Balanced st.heap st'.heap [] v.free
  fault := True
  crash := True
  timeout := True

section Branch

variable {α : Type} (frees : α → List Nat) (wrap : α → BValue)

theorem branch_owns {env : Env} (wraps : ∀ x, (wrap x).free = frees x) (release : List Nat)
    (complain : St → St) (silent : ∀ st, (complain st).heap = st.heap) (st : St)
    (parse : Outcome St (Option Nat × α))
    (parsed : parse.Sat (keeping (st.malloc env) [st.mallocs] frees)) :
    (parse.andThen fun (next, x) st =>
      match next with
      | some ptr => .done (.parsed ptr (wrap x)) st
      | none => .done .rejected (complain ((st.free release).free (frees x)))).Sat
      (elementKeeping st release) := by
  refine Sat.andThen parsed ?_ id id id
  rintro ⟨next, x⟩ st' kept
  have grown : Balanced st.heap st'.heap [] (frees x) :=
    (balanced_malloc st.heap []).trans kept
  cases next with
  | some q =>
    change Balanced st.heap st'.heap [] (wrap x).free
    rw [wraps]
    exact grown
  | none =>
    change Balanced st.heap (complain ((st'.free release).free (frees x))).heap release []
    rw [silent]
    have held := grown.frame release
    rw [List.append_nil] at held
    apply held.trans
    apply (balanced_free st'.heap (frees x) release).congr List.perm_append_comm (.refl _) |>.trans
    exact balanced_free _ [] (frees x)

end Branch

theorem parseElement_owns {env : Env} (mallocs : Allocates env)
    (list : St → Nat → BList → Outcome St (Option Nat × BList))
    (dict : St → Nat → BDict → Outcome St (Option Nat × BDict))
    (lists : ∀ st p ret, (list st p ret).Sat (keeping st (bListFree ret) bListFree))
    (dicts : ∀ st p ret, (dict st p ret).Sat (keeping st (bDictFree ret) bDictFree))
    (release : List Nat) (complain : St → St) (silent : ∀ st, (complain st).heap = st.heap)
    (st : St) (p : Nat) (c : UInt8) :
    (parseElement env list dict release complain st p c).Sat (elementKeeping st release) := by
  simp only [parseElement, mallocs _, Bool.true_eq_false, if_false]
  split
  next => exact branch_owns bListFree .list free_list release id (fun _ => rfl) st _ (lists _ _ _)
  next =>
    split
    next =>
      exact branch_owns bIntFree .int (fun _ => by simp [BValue.free]) release id (fun _ => rfl) st _
        (bIntParse_owns _ _ _ _)
    next =>
      split
      next =>
        exact branch_owns bDictFree .dict free_dict release id (fun _ => rfl) st _ (dicts _ _ _)
      next =>
        exact branch_owns bStringFree .string (fun _ => by simp [BValue.free]) release complain
          silent st _ (bStringParse_owns _ _ _ _ rfl)

theorem bListAdd_owns {env : Env} (mallocs : Allocates env) (st : St) (v : BValue) (ret : BList) :
    Balanced st.heap (bListAdd env st v ret).2.heap (bListFree ret ++ v.free)
      (bListFree (bListAdd env st v ret).1) := by
  rw [bListAdd, if_pos (mallocs _)]
  apply (balanced_malloc st.heap (bListFree ret ++ v.free)).congr (.refl _)
  rw [List.perm_iff_count]
  intro block
  simp only [bListFree, lEntriesFree_append, lEntriesFree, List.count_append, List.count_nil, St.heap]
  omega

theorem bDictAdd_owns {env : Env} (mallocs : Allocates env) (st : St) (v : BValue) (key : BString)
    (ret : BDict) :
    Balanced st.heap (bDictAdd env st v key ret).2.heap (bDictFree ret ++ v.free)
      (bDictFree (bDictAdd env st v key ret).1) := by
  rw [bDictAdd, if_pos (mallocs _)]
  apply (balanced_malloc st.heap (bDictFree ret ++ v.free)).congr (.refl _)
  rw [List.perm_iff_count]
  intro block
  simp only [bDictFree, dEntriesFree_append, dEntriesFree, valFree, List.count_append,
    List.count_nil, St.heap]
  omega

structure Owns (env : Env) (fuel : Nat) : Prop where
  list : ∀ st p ret, (bListParse env fuel st p ret).Sat (keeping st (bListFree ret) bListFree)
  listLoop : ∀ st p ret, (bListLoop env fuel st p ret).Sat (keeping st (bListFree ret) bListFree)
  dict : ∀ st p ret, (bDictParse env fuel st p ret).Sat (keeping st (bDictFree ret) bDictFree)
  dictLoop : ∀ st p ret, (bDictLoop env fuel st p ret).Sat (keeping st (bDictFree ret) bDictFree)

theorem Sat.keeping_of {α : Type} {st st₁ : St} {before before₁ : List Nat} {frees : α → List Nat}
    {call : Outcome St (Option Nat × α)} (so_far : Balanced st.heap st₁.heap before before₁)
    (kept : call.Sat (keeping st₁ before₁ frees)) : call.Sat (keeping st before frees) :=
  kept.mono (fun _ _ later => so_far.trans later) id id id

theorem bListLoop_owns {env : Env} (mallocs : Allocates env) (fuel : Nat) (owns : Owns env fuel)
    (st : St) (p : Nat) (ret : BList) :
    (bListLoop env (fuel + 1) st p ret).Sat (keeping st (bListFree ret) bListFree) := by
  rw [bListLoop]
  split
  next => trivial
  next c _ =>
    split
    next => exact .refl _ _
    next =>
      refine Sat.andThen (parseElement_owns mallocs _ _ owns.list owns.dict [] id (fun _ => rfl)
        st p c) ?_ id id id
      intro element st' kept
      cases element with
      | skipped => exact False.elim kept
      | rejected =>
        have held := Balanced.frame kept (bListFree ret)
        simp only [List.append_nil] at held
        exact held
      | parsed q v =>
        have held := Balanced.frame kept (bListFree ret)
        rw [List.append_nil] at held
        exact Sat.keeping_of (held.trans (bListAdd_owns mallocs st' v ret)) (owns.listLoop _ _ _)

theorem bDictLoop_owns {env : Env} (mallocs : Allocates env) (fuel : Nat) (owns : Owns env fuel)
    (st : St) (p : Nat) (ret : BDict) :
    (bDictLoop env (fuel + 1) st p ret).Sat (keeping st (bDictFree ret) bDictFree) := by
  rw [bDictLoop]
  split
  next => trivial
  next c _ =>
    split
    next => exact .refl _ _
    next =>
      simp only [mallocs _, Bool.true_eq_false, if_false]
      refine Sat.andThen (bStringParse_owns env (st.malloc env) p (bStringAlloc st.mallocs) rfl) ?_ id id
        id
      rintro ⟨next, key⟩ st₁ kept
      -- From here on the loop holds its dictionary and the key.
      have holds : Balanced st.heap st₁.heap (bDictFree ret) (bDictFree ret ++ bStringFree key) := by
        have grown := ((balanced_malloc st.heap []).trans kept).frame (bDictFree ret)
        rwa [List.append_nil] at grown
      have released (st : St) (d : BDict) : Balanced st.heap (st.free (bStringFree key)).heap
          (bDictFree d ++ bStringFree key) (bDictFree d) := balanced_free _ _ _
      cases next with
      | none => exact holds.trans (released st₁ ret)
      | some q =>
        dsimp only
        split
        next => trivial
        next c _ =>
          refine Sat.andThen (parseElement_owns mallocs _ _ owns.list owns.dict (bStringFree key) _
            (fun st => heap_print st _ _ _ _) st₁ q c) ?_ id id id
          intro element st₂ moved
          cases element with
          | skipped => exact False.elim moved
          | rejected =>
            have rest := Balanced.frame moved (bDictFree ret)
            rw [List.append_nil] at rest
            exact holds.trans rest
          | parsed r v =>
            have value := Balanced.frame moved (bStringFree key ++ bDictFree ret)
            have added := (bDictAdd_owns mallocs st₂ v key ret).frame (bStringFree key)
            apply Sat.keeping_of _ (owns.dictLoop _ _ _)
            apply holds.trans
            apply (value.congr (by simp [List.perm_append_comm]) (.refl _)).trans
            rw [List.append_assoc]
            apply added.trans
            exact (released _ _).congr List.perm_append_comm (.refl _)

theorem parse_owns {env : Env} (mallocs : Allocates env) (fuel : Nat) : Owns env fuel := by
  induction fuel with
  | zero => constructor <;> (intros; simp [bListParse, bListLoop, bDictParse, bDictLoop, keeping])
  | succ fuel owns =>
    constructor
    · intro st p ret
      rw [bListParse]
      split
      next => trivial
      next =>
        split
        next => exact .refl _ _
        next => exact owns.listLoop st _ ret
    · exact bListLoop_owns mallocs fuel owns
    · intro st p ret
      rw [bDictParse]
      split
      next => trivial
      next =>
        split
        next => exact .refl _ _
        next => exact owns.dictLoop st _ ret
    · exact bDictLoop_owns mallocs fuel owns

end BTServer.Bencode
