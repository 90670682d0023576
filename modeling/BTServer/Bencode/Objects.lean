import BTServer.Bencode.Bounds
import BTServer.Bencode.Fuel
import BTServer.Bencode.Ownership

set_option autoImplicit false

namespace BTServer.Bencode

open CString Outcome Heap

mutual
def BValue.objects : BValue → List Nat
  | .string s => s.node :: s.head.toList
  | .int i => [i.node]
  | .list ⟨node, entries⟩ => node :: itemObjects entries
  | .dict ⟨node, entries⟩ => node :: entryObjects entries

def itemObjects : List (LEntry BValue) → List Nat
  | [] => []
  | ⟨node, entry⟩ :: rest => node :: entry.objects ++ itemObjects rest

def entryObjects : List (DEntry BValue) → List Nat
  | [] => []
  | ⟨node, _, val⟩ :: rest => node :: valObjects val ++ entryObjects rest

def valObjects : Option BValue → List Nat
  | none => []
  | some v => v.objects
end

def listObjects (l : BList) : List Nat := l.node :: itemObjects l.entries

def dictObjects (d : BDict) : List Nat := d.node :: entryObjects d.entries

mutual
theorem free_perm_objects : (v : BValue) → v.free.Perm v.objects
  | .string s => by
    simp only [BValue.free, BValue.objects, bStringFree]
    exact List.perm_append_comm
  | .int i => .refl _
  | .list ⟨node, entries⟩ => by
    simp only [BValue.free, BValue.objects]
    exact List.perm_append_comm.trans ((lEntriesFree_perm entries).cons node)
  | .dict ⟨node, entries⟩ => by
    simp only [BValue.free, BValue.objects]
    exact List.perm_append_comm.trans ((dEntriesFree_perm entries).cons node)

theorem lEntriesFree_perm : (es : List (LEntry BValue)) → (lEntriesFree es).Perm (itemObjects es)
  | [] => .refl _
  | ⟨node, entry⟩ :: rest => by
    simp only [lEntriesFree, itemObjects]
    exact (List.perm_append_comm.trans ((free_perm_objects entry).cons node)).append
      (lEntriesFree_perm rest)

theorem dEntriesFree_perm : (es : List (DEntry BValue)) → (dEntriesFree es).Perm (entryObjects es)
  | [] => .refl _
  | ⟨node, _, val⟩ :: rest => by
    simp only [dEntriesFree, entryObjects]
    exact (List.perm_append_comm.trans ((valFree_perm val).cons node)).append
      (dEntriesFree_perm rest)

theorem valFree_perm : (val : Option BValue) → (valFree val).Perm (valObjects val)
  | none => .refl _
  | some v => free_perm_objects v
end

theorem bListFree_perm (l : BList) : (bListFree l).Perm (listObjects l) :=
  List.perm_append_comm.trans ((lEntriesFree_perm l.entries).cons l.node)

theorem bDictFree_perm (d : BDict) : (bDictFree d).Perm (dictObjects d) :=
  List.perm_append_comm.trans ((dEntriesFree_perm d.entries).cons d.node)

structure Kept (R : St → St → Prop) : Prop where
  refl : ∀ st, R st st
  trans : ∀ st₁ st₂ st₃, R st₁ st₂ → R st₂ st₃ → R st₁ st₃
  scan : ∀ (st : St) (s : Scan), R st { st with toScan := s }
  free : ∀ (st : St) (blocks : List Nat), R st (st.free blocks)
  print : ∀ (st : St) (level : MsgLevel) (func : String) (line : Nat) (text : Bytes),
    R st (st.print level func line text)

section Kept

variable {R : St → St → Prop} (kept : Kept R) (env : Env)

include kept

theorem Kept.print_scan (st : St) (s : Scan) (level : MsgLevel) (func : String) (line : Nat)
    (text : Bytes) : R st (St.print { st with toScan := s } level func line text) :=
  kept.trans _ _ _ (kept.scan st s) (kept.print _ level func line text)

theorem bStringParse_kept (st : St) (p : Nat) (target : BString) :
    R st (bStringParse env st p target).final := by
  unfold bStringParse
  split
  next => exact kept.refl st
  next =>
    split
    next => exact kept.print st _ _ _ _
    next =>
      dsimp only
      split
      next => exact kept.print_scan st _ _ _ _ _
      next =>
        split
        next => exact kept.print_scan st _ _ _ _ _
        next =>
          split
          next => split <;> exact kept.scan st _
          next => exact kept.scan st _

theorem bIntParse_kept (st : St) (p : Nat) (ret : BInt) : R st (bIntParse env st p ret).final := by
  unfold bIntParse
  split
  next => exact kept.refl st
  next =>
    split
    next => exact kept.print st _ _ _ _
    next =>
      dsimp only
      split
      next => exact kept.print_scan st _ _ _ _ _
      next =>
        split
        next => exact kept.print_scan st _ _ _ _ _
        next => exact kept.scan st _

theorem bListAdd_kept (st : St) (v : BValue) (ret : BList) :
    R st (bListAdd env st v ret).2 := by
  unfold bListAdd
  split
  next => exact kept.scan st _
  next => exact kept.print_scan st _ _ _ _ _

theorem bDictAdd_kept (st : St) (v : BValue) (key : BString) (ret : BDict) :
    R st (bDictAdd env st v key ret).2 := by
  unfold bDictAdd
  split
  next => exact kept.scan st _
  next => exact kept.print_scan st _ _ _ _ _

theorem branch_kept {α : Type} (wrap : α → BValue) (frees : α → List Nat) (release : List Nat)
    (complain : St → St) (complains : ∀ st, R st (complain st)) (st : St)
    (parse : Outcome St (Option Nat × α)) (parsed : R (st.malloc env) parse.final) :
    R st (parse.andThen fun (next, x) st =>
      match next with
      | some ptr => .done (Element.parsed ptr (wrap x)) st
      | none => .done Element.rejected (complain ((st.free release).free (frees x)))).final := by
  apply final_andThen (kept.trans _ _ _ (kept.scan st _) parsed)
  rintro ⟨next, x⟩ st' so_far
  cases next with
  | some q => exact so_far
  | none =>
    apply kept.trans _ _ _ so_far
    apply kept.trans _ _ _ (kept.free st' release)
    exact kept.trans _ _ _ (kept.free _ _) (complains _)

theorem parseElement_kept (list : St → Nat → BList → Outcome St (Option Nat × BList))
    (dict : St → Nat → BDict → Outcome St (Option Nat × BDict))
    (lists : ∀ st p ret, R st (list st p ret).final)
    (dicts : ∀ st p ret, R st (dict st p ret).final) (release : List Nat) (complain : St → St)
    (complains : ∀ st, R st (complain st)) (st : St) (p : Nat) (c : UInt8) :
    R st (parseElement env list dict release complain st p c).final := by
  unfold parseElement
  dsimp only
  split
  next => exact kept.scan st _
  next =>
    split
    next => exact branch_kept kept env .list bListFree release id kept.refl st _ (lists _ _ _)
    next =>
      split
      next =>
        exact branch_kept kept env .int bIntFree release id kept.refl st _
          (bIntParse_kept kept env _ _ _)
      next =>
        split
        next => exact branch_kept kept env .dict bDictFree release id kept.refl st _ (dicts _ _ _)
        next =>
          exact branch_kept kept env .string bStringFree release complain complains st _
            (bStringParse_kept kept env _ _ _)

structure KeepsAll (R : St → St → Prop) (env : Env) (fuel : Nat) : Prop where
  list : ∀ st p ret, R st (bListParse env fuel st p ret).final
  listLoop : ∀ st p ret, R st (bListLoop env fuel st p ret).final
  dict : ∀ st p ret, R st (bDictParse env fuel st p ret).final
  dictLoop : ∀ st p ret, R st (bDictLoop env fuel st p ret).final

theorem bListLoop_kept (fuel : Nat) (all : KeepsAll R env fuel) (st : St) (p : Nat) (ret : BList) :
    R st (bListLoop env (fuel + 1) st p ret).final := by
  rw [bListLoop]
  split
  next => exact kept.refl st
  next c _ =>
    split
    next => exact kept.refl st
    next =>
      apply final_andThen (parseElement_kept kept env _ _ all.list all.dict [] id kept.refl st p c)
      intro element st' so_far
      cases element with
      | skipped => exact kept.trans _ _ _ so_far (all.listLoop _ _ _)
      | rejected => exact so_far
      | parsed q v =>
        apply kept.trans _ _ _ so_far
        exact kept.trans _ _ _ (bListAdd_kept kept env st' v ret) (all.listLoop _ _ _)

theorem bDictLoop_kept (fuel : Nat) (all : KeepsAll R env fuel) (st : St) (p : Nat) (ret : BDict) :
    R st (bDictLoop env (fuel + 1) st p ret).final := by
  rw [bDictLoop]
  split
  next => exact kept.refl st
  next =>
    split
    next => exact kept.refl st
    next =>
      split
      next => exact kept.scan st _
      next =>
        apply final_andThen (kept.trans _ _ _ (kept.scan st _) (bStringParse_kept kept env _ _ _))
        rintro ⟨next, key⟩ st₁ read
        cases next with
        | none => exact kept.trans _ _ _ read (kept.free _ _)
        | some q =>
          dsimp only
          split
          next => exact read
          next c _ =>
            apply final_andThen (kept.trans _ _ _ read (parseElement_kept kept env _ _ all.list
              all.dict _ _ (fun st => kept.print st _ _ _ _) st₁ q c))
            intro element st₂ so_far
            apply kept.trans _ _ _ so_far
            cases element with
            | skipped => exact kept.trans _ _ _ (kept.free _ _) (all.dictLoop _ _ _)
            | rejected => exact kept.refl _
            | parsed r v =>
              apply kept.trans _ _ _ (bDictAdd_kept kept env st₂ v key ret)
              exact kept.trans _ _ _ (kept.free _ _) (all.dictLoop _ _ _)

theorem parse_kept (fuel : Nat) : KeepsAll R env fuel := by
  induction fuel with
  | zero =>
    constructor
    all_goals
      intro st p ret
      simp only [bListParse, bListLoop, bDictParse, bDictLoop]
      exact kept.refl st
  | succ fuel all =>
    constructor
    · intro st p ret
      rw [bListParse]
      split
      next => exact kept.refl st
      next =>
        split
        next => exact kept.refl st
        next => exact all.listLoop st _ ret
    · exact bListLoop_kept kept env fuel all
    · intro st p ret
      rw [bDictParse]
      split
      next => exact kept.refl st
      next =>
        split
        next => exact kept.refl st
        next => exact all.dictLoop st _ ret
    · exact bDictLoop_kept kept env fuel all

end Kept

theorem freed_kept : Kept fun st st' => st.freed ⊆ st'.freed where
  refl _ := List.Subset.refl _
  trans _ _ _ first second := List.Subset.trans first second
  scan _ _ := List.Subset.refl _
  free _ _ := List.subset_append_left _ _
  print _ _ _ _ _ := List.Subset.refl _

/-- What is live of the objects that belonged to the target or were allocated meanwhile is what the
target holds now, on one path each. -/
structure Owned (st st' : St) (before after : List Nat) : Prop where
  once : after.Nodup
  live : ∀ object, object ∈ after ↔ object ∉ st'.freed ∧
    (object ∈ before ∨ (st.mallocs ≤ object ∧ object < st'.mallocs))

structure Released (st st' : St) (objects blocks : List Nat) : Prop where
  each : blocks.Perm objects
  once : (st'.free blocks).freed.Nodup
  rest : ∀ object, st.mallocs ≤ object → object < st'.mallocs → object ∈ (st'.free blocks).freed

theorem owned_of_balanced {st st' : St} {before after blocks blocks' : List Nat}
    (balanced : Balanced st.heap st'.heap blocks blocks') (kept : st.freed ⊆ st'.freed)
    (first : blocks.Perm before) (last : blocks'.Perm after) (tidy : st.heap.Tidy before) :
    Owned st st' before after ∧ Released st st' after blocks' := by
  have whole := balanced.congr first last
  have distinct := (whole.tidy tidy).distinct
  refine ⟨⟨(List.nodup_append'.mp distinct).2.1, ?_⟩, last, ?_, ?_⟩
  · exact whole.held_iff tidy (fun object member => kept member)
  · exact (last.append_left _).nodup_iff.mpr distinct
  · intro object low high
    exact (last.append_left _).mem_iff.mpr ((whole.mem_iff object).mpr (.inr ⟨low, high⟩))

theorem returns_of_sat {α : Type} {outcome : Outcome St (Option Nat × α)}
    {post : Post St (Option Nat × α)} (sat : outcome.Sat post)
    (inside : ∀ st, outcome ≠ .fault st) (crash : ¬ post.crash) (timeout : ¬ post.timeout) :
    ∃ next x st', outcome = .done (next, x) st' := by
  cases outcome with
  | done result st' => exact ⟨result.1, result.2, st', rfl⟩
  | fault st' => exact absurd rfl (inside st')
  | crash st' => exact absurd sat crash
  | timeout st' => exact absurd sat timeout

/-- Where the allocations succeed and the parse stays inside the buffer, it returns; whatever it
returns, the target owns what is live, and releasing the target leaves nothing. -/
theorem parse_owns_objects (env : Env) (mallocs : Allocates env) (st : St) :
    (∀ d, st.heap.Tidy (dictObjects d) → (∀ fuel st', bDictParse env fuel st 0 d ≠ .fault st') →
      (∃ enough, ∀ fuel, enough ≤ fuel →
        ∃ next d' st', bDictParse env fuel st 0 d = .done (next, d') st') ∧
      ∀ fuel next d' st', bDictParse env fuel st 0 d = .done (next, d') st' →
        Owned st st' (dictObjects d) (dictObjects d') ∧
          Released st st' (dictObjects d') (bDictFree d')) ∧
    ∀ l, st.heap.Tidy (listObjects l) → (∀ fuel st', bListParse env fuel st 0 l ≠ .fault st') →
      (∃ enough, ∀ fuel, enough ≤ fuel →
        ∃ next l' st', bListParse env fuel st 0 l = .done (next, l') st') ∧
      ∀ fuel next l' st', bListParse env fuel st 0 l = .done (next, l') st' →
        Owned st st' (listObjects l) (listObjects l') ∧
          Released st st' (listObjects l') (bListFree l') := by
  have steady := mallocs.not_failing
  constructor
  · intro d tidy inside
    constructor
    · refine ⟨max 1 (2 * env.buf.length), fun fuel enough => ?_⟩
      exact returns_of_sat ((parse_sound env fuel).dict st 0 env.buf d env.at_zero) (inside fuel)
        steady (not_or.mpr ⟨steady, Nat.not_lt.mpr enough⟩)
    · intro fuel next d' st' result
      have balanced := (parse_owns mallocs fuel).dict st 0 d
      have freed := (parse_kept freed_kept env fuel).dict st 0 d
      rw [result] at balanced freed
      exact owned_of_balanced balanced freed (bDictFree_perm d) (bDictFree_perm d') tidy
  · intro l tidy inside
    constructor
    · refine ⟨max 1 (2 * env.buf.length), fun fuel enough => ?_⟩
      exact returns_of_sat ((parse_sound env fuel).list st 0 env.buf l env.at_zero) (inside fuel)
        steady (not_or.mpr ⟨steady, Nat.not_lt.mpr enough⟩)
    · intro fuel next l' st' result
      have balanced := (parse_owns mallocs fuel).list st 0 l
      have freed := (parse_kept freed_kept env fuel).list st 0 l
      rw [result] at balanced freed
      exact owned_of_balanced balanced freed (bListFree_perm l) (bListFree_perm l') tidy

theorem parse_owns_objects_of_entry :
    let env : Env := .plentiful (ascii "d1:ai5ee")
    ∃ d' st', bDictParse env 3 ⟨⟨0, 0, 1⟩, [], []⟩ 0 (bDictAlloc 0) = .done (some 8, d') st' ∧
      Owned ⟨⟨0, 0, 1⟩, [], []⟩ st' [0] (dictObjects d') ∧
        Released ⟨⟨0, 0, 1⟩, [], []⟩ st' (dictObjects d') (bDictFree d') := by
  intro env
  have accepted : acceptedAt (bDictParse env 3 ⟨⟨0, 0, 1⟩, [], []⟩ 0 (bDictAlloc 0)) = some 8 := by
    decide +kernel
  obtain ⟨d', st', result⟩ := acceptedAt_some accepted
  exact ⟨d', st', result, ((parse_owns_objects env (fun _ => rfl) ⟨⟨0, 0, 1⟩, [], []⟩).1
    (bDictAlloc 0) ⟨by decide, by decide⟩ (bDictParse_inside result)).2 3 _ _ _ result⟩

end BTServer.Bencode
