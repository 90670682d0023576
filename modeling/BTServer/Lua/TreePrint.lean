import BTServer.Lua.TableSearch
import BTServer.Lua.Value

set_option autoImplicit false

namespace BTServer.Lua.TablePrint

open CString Outcome

-- The text of a tree of tables that are not shared; `text` is what `tostring` makes of a number.
section Render

variable (text : Number → Bytes)

def pad (level : Nat) : Bytes := rep (ascii " ") (level * 4)

def renderKey : Key → Bytes
  | .index i => ascii "[" ++ text (.int i) ++ ascii "] = "
  | .string s => ascii "[\"" ++ s ++ ascii "\"] = "

mutual
def renderValue (level : Nat) : LuaValue → Bytes
  | .nil => ascii "nil" ++ ascii "\n"
  | .number n => text n ++ ascii "\n"
  | .string s => ascii "\"" ++ s ++ ascii "\"\n"
  | .table t => ascii "\x7b\n" ++ renderFields (level + 1) t ++ pad level ++ ascii "\x7d\n"

def renderFields (level : Nat) : List (Key × LuaValue) → Bytes
  | [] => []
  | (k, x) :: t => pad level ++ renderKey text k ++ renderValue level x ++ renderFields level t
end

end Render

inductive Rearranged : LuaValue → LuaValue → Prop
  | refl (x : LuaValue) : Rearranged x x
  | fields {t t' : Table} (perm : t.Perm t') : Rearranged (.table t) (.table t')
  | inside {front back : Table} {k : Key} {x x' : LuaValue} (below : Rearranged x x') :
      Rearranged (.table (front ++ (k, x) :: back)) (.table (front ++ (k, x') :: back))
  | trans {x y z : LuaValue} (first : Rearranged x y) (second : Rearranged y z) : Rearranged x z

variable {Ref : Type}

inductive Piece (Ref : Type) where
  | value (x : LuaValue) (v : Value Ref)
  | fields (t : Table) (fields : List (Value Ref × Value Ref))

inductive Keys (g : TableGraph Ref) (text : Number → Bytes) : Key → Value Ref → Prop
  | index {i id : Nat} (shown : g.text .number id = text (.int i)) :
      Keys g text (.index i) (.other .number id)
  | string {s : Bytes} : Keys g text (.string s) (.string s)

/-- The tables of a tree as objects of the interpreter, in the order in which `pairs` comes to
them. A table that was made by the parser has no metatable. -/
inductive Lays (g : TableGraph Ref) (text : Number → Bytes) : Piece Ref → List Ref → Prop
  | nil : Lays g text (.value .nil .nil) []
  | number {n : Number} {id : Nat} (shown : g.text .number id = text n) :
      Lays g text (.value (.number n) (.other .number id)) []
  | string {s : Bytes} : Lays g text (.value (.string s) (.string s)) []
  | table {t : Table} {r : Ref} {refs : List Ref} (plain : g.metatable r = none)
      (inside : Lays g text (.fields t (g.fields r)) refs) :
      Lays g text (.value (.table t) (.table r)) (r :: refs)
  | done : Lays g text (.fields [] []) []
  | field {k : Key} {key : Value Ref} {x : LuaValue} {v : Value Ref} {t : Table}
      {fields : List (Value Ref × Value Ref)} {refs later : List Ref} (keys : Keys g text k key)
      (here : Lays g text (.value x v) refs) (rest : Lays g text (.fields t fields) later) :
      Lays g text (.fields ((k, x) :: t) ((key, v) :: fields)) (refs ++ later)

/-- A value of the parser where the interpreter keeps it: every table of it is an object of its
own. -/
structure Laid (Ref : Type) (text : Number → Bytes) (x : LuaValue) where
  graph : TableGraph Ref
  tb : Value Ref
  order : LuaValue
  refs : List Ref
  same : Rearranged x order
  lays : Lays graph text (.value order tb) refs
  apart : refs.Nodup

section Print

variable {g : TableGraph Ref} {text : Number → Bytes}

theorem Keys.line {k : Key} {key : Value Ref} (keys : Keys g text k key) :
    ascii "[" ++ quo key ++ g.tostring key ++ quo key ++ ascii "] = " = renderKey text k := by
  cases keys with
  | index shown => simp [quo, TableGraph.tostring, renderKey, shown]
  | string => simp [quo, TableGraph.tostring, renderKey, ascii]

variable [DecidableEq Ref]

structure Listed (st st' : Listing Ref) (refs : List Ref) : Prop where
  named : st'.named = refs.reverse ++ st.named
  entered : st'.entered = st.entered + refs.length

omit [DecidableEq Ref] in
theorem Listed.trans {st st' st'' : Listing Ref} {refs later : List Ref}
    (first : Listed st st' refs) (second : Listed st' st'' later) :
    Listed st st'' (refs ++ later) where
  named := by rw [second.named, first.named, List.reverse_append, List.append_assoc]
  entered := by rw [second.entered, first.entered, List.length_append, Nat.add_assoc]

def Fresh (st : Listing Ref) (refs : List Ref) : Prop := refs.Nodup ∧ ∀ r ∈ refs, r ∉ st.named

omit [DecidableEq Ref] in
theorem Fresh.front {st : Listing Ref} {refs later : List Ref} (fresh : Fresh st (refs ++ later)) :
    Fresh st refs :=
  ⟨fresh.1.of_append_left, fun r member => fresh.2 r (List.mem_append_left _ member)⟩

omit [DecidableEq Ref] in
theorem Fresh.back {st st' : Listing Ref} {refs later : List Ref}
    (fresh : Fresh st (refs ++ later)) (listed : Listed st st' refs) : Fresh st' later := by
  refine ⟨fresh.1.of_append_right, fun r member known => ?_⟩
  rw [listed.named, List.mem_append, List.mem_reverse] at known
  rcases known with before | before
  next => exact List.disjoint_of_nodup_append fresh.1 before member
  next => exact fresh.2 r (List.mem_append_right _ member) before

def Prints (g : TableGraph Ref) (text : Number → Bytes) (refs : List Ref) : Piece Ref → Prop
  | .value x v => ∀ fuel level ret st k key fields, Keys g text k key → refs.length ≤ fuel →
      Fresh st refs → ∃ st', Listed st st' refs ∧
        listFields g (listTable g fuel) level (pad level) ((key, v) :: fields) ret st =
          listFields g (listTable g fuel) level (pad level) fields
            (ret ++ pad level ++ renderKey text k ++ renderValue text level x) st'
  | .fields t fields => ∀ fuel level ret st, refs.length ≤ fuel → Fresh st refs →
      ∃ st', Listed st st' refs ∧
        listFields g (listTable g fuel) level (pad level) fields ret st =
          .done (ret ++ renderFields text level t) st'

theorem listTable_prints {t : Table} {r : Ref} {refs : List Ref} (plain : g.metatable r = none)
    (inside : Prints g text refs (.fields t (g.fields r))) {fuel : Nat} (enough : refs.length < fuel)
    (level : Nat) {st : Listing Ref} (fresh : Fresh st refs) :
    ∃ st', Listed st.enter st' refs ∧
      listTable g fuel (.table r) level st = .done (renderFields text level t) st' := by
  obtain ⟨fuel, rfl⟩ : ∃ more, fuel = more + 1 := ⟨fuel - 1, by omega⟩
  obtain ⟨st', listed, run⟩ := inside fuel level [] st.enter (by omega) fresh
  have none : g.getmetatable r = .nil := by rw [TableGraph.getmetatable, plain]
  refine ⟨st', listed, ?_⟩
  rw [listTable, show rep (ascii " ") (level * 4) = pad level from rfl, run, done_andThen,
    listMetatable, none]
  rfl

theorem lays_prints {piece : Piece Ref} {refs : List Ref} (lays : Lays g text piece refs) :
    Prints g text refs piece := by
  have start {st : Listing Ref} : Listed st st [] := ⟨rfl, rfl⟩
  induction lays with
  | nil =>
    intro fuel level ret st k key fields keys _ _
    refine ⟨st, start, ?_⟩
    have shown : g.tostring .nil = ascii "nil" := rfl
    simp only [listFields, shown, ← keys.line, renderValue, List.append_assoc]
  | @number n id shown =>
    intro fuel level ret st k key fields keys _ _
    refine ⟨st, start, ?_⟩
    have shown' : g.tostring (.other .number id) = text n := shown
    simp only [listFields, shown', ← keys.line, renderValue, List.append_assoc]
  | string =>
    intro fuel level ret st k key fields keys _ _
    refine ⟨st, start, ?_⟩
    simp only [listFields, ← keys.line, renderValue, List.append_assoc]
  | @table t r refs plain inside ih =>
    intro fuel level ret st k key fields keys enough fresh
    -- The table gets its name before its fields are listed.
    let st₁ : Listing Ref := { st with tableList := (r, g.tostring key) :: st.tableList }
    have fresh' : Fresh st₁ refs := by
      refine ⟨fresh.1.of_cons, fun r' member known => ?_⟩
      rcases List.mem_cons.mp known with rfl | known
      next => exact (List.nodup_cons.mp fresh.1).1 member
      next => exact fresh.2 r' (List.mem_cons_of_mem _ member) known
    obtain ⟨st', listed, run⟩ := listTable_prints plain ih enough (level + 1) fresh'
    have new : st.name (.table r) = none := by
      rcases name_cases st r with ⟨known, -⟩ | ⟨-, new⟩
      next => exact absurd known (fresh.2 r (by simp))
      next => exact new
    refine ⟨st', ⟨?_, ?_⟩, ?_⟩
    next =>
      rw [listed.named, List.reverse_cons, List.append_assoc]
      rfl
    next =>
      rw [listed.entered, List.length_cons]
      simp only [Listing.enter, st₁]
      omega
    next =>
      rw [listFields]
      simp only [new]
      rw [run, done_andThen, ← keys.line, renderValue]
      simp
  | done =>
    intro fuel level ret st _ _
    exact ⟨st, start, by rw [listFields, renderFields, List.append_nil]⟩
  | @field k key x v t fields refs later keys here rest ih ih' =>
    intro fuel level ret st enough fresh
    rw [List.length_append] at enough
    obtain ⟨st₁, first, run⟩ := ih fuel level ret st k key fields keys (by omega) fresh.front
    obtain ⟨st₂, second, run'⟩ := ih' fuel level
      (ret ++ pad level ++ renderKey text k ++ renderValue text level x) st₁ (by omega)
      (fresh.back first)
    refine ⟨st₂, first.trans second, ?_⟩
    rw [run, run', renderFields]
    simp

theorem tableTostring_laid {t : Table} {r : Ref} {refs : List Ref}
    (lays : Lays g text (.value (.table t) (.table r)) refs) (apart : refs.Nodup) {fuel : Nat}
    (enough : refs.length ≤ fuel) :
    ∃ st, st.entered = refs.length ∧ tableTostring g fuel (.table r) =
      .done (.ok (ascii " = \x7b\n" ++ renderFields text 1 t ++ ascii "\x7d")) st := by
  cases lays with
  | @table t r refs plain inside =>
    have fresh : Fresh ⟨[(r, ascii "root table")], 0⟩ refs := by
      refine ⟨apart.of_cons, fun r' member known => ?_⟩
      rw [List.mem_singleton.mp known] at member
      exact (List.nodup_cons.mp apart).1 member
    obtain ⟨st, listed, run⟩ := listTable_prints plain (lays_prints inside) enough 1 fresh
    refine ⟨st, ?_, ?_⟩
    next =>
      rw [listed.entered, List.length_cons]
      simp only [Listing.enter]
      omega
    next =>
      rw [tableTostring, run, done_andThen]

end Print

end BTServer.Lua.TablePrint
