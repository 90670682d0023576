import BTServer.Bencode.RoundTrip
import Mathlib.Data.List.Forall2

set_option autoImplicit false

namespace BTServer.Bencode

open CString

-- The numbers of an encoded tree in the order of the text: lengths of keys and strings, integers.
inductive Token where
  | key (data : Bytes)
  | text (data : Bytes)
  | int (n : Int)

mutual
def tokens : Value → List Token
  | .str data _ => [.text data]
  | .int n => [.int n]
  | .list vs => itemTokens vs
  | .dict es => entryTokens es

def itemTokens : List Value → List Token
  | [] => []
  | v :: vs => tokens v ++ itemTokens vs

def entryTokens : List (Bytes × Value) → List Token
  | [] => []
  | (key, v) :: es => .key key :: (tokens v ++ entryTokens es)
end

def Token.read (env : Env) (ints : Nat) : Token → Number × Int
  | .key data | .text data =>
    (lengthOf (decimal data.length), (lengthOf (decimal data.length)).val)
  | .int n => (intOf env ints (intText n), (toUnsigned (intOf env ints (intText n)).val).toNat)

def Token.ints : Token → Nat
  | .int _ => 1
  | _ => 0

/-- Some number is refused: `errno` is out of range or was set before the parse. -/
def refuses (env : Env) (errno : Int) (ints : Nat) : List Token → Bool
  | [] => false
  | token :: rest =>
    let (number, val) := token.read env ints
    let errno := if number.range then erange else errno
    strtolFails errno val || refuses env errno (ints + token.ints) rest

theorem refuses_text {env : Env} (mallocs : Allocates env) (s : Scan) (data : Bytes) (rest : List Token) :
    (strtolFails (s.strtol (lengthOf (decimal data.length))).errno
        (lengthOf (decimal data.length)).val ||
      refuses env (s.strtol (lengthOf (decimal data.length))).errno s.ints rest) =
      (seeText env s data).elim true fun s' => refuses env s'.errno s'.ints rest := by
  by_cases fails : strtolFails (s.strtol (lengthOf (decimal data.length))).errno
      (lengthOf (decimal data.length)).val = true
  next => simp [seeText, fails]
  next =>
    rw [seeText, if_neg fails, Bool.eq_false_iff.mpr fails, Bool.false_or, Option.elim_some,
      mallocs.malloc_errno]
    rfl

theorem refuses_int {env : Env} (mallocs : Allocates env) (s : Scan) (n : Int)
    (rest : List Token) :
    (strtolFails (s.strtol (intOf env s.ints (intText n))).errno
        (toUnsigned (intOf env s.ints (intText n)).val).toNat ||
      refuses env (s.strtol (intOf env s.ints (intText n))).errno (s.ints + 1) rest) =
      (see env s (.int n)).elim true fun (_, s') => refuses env s'.errno s'.ints rest := by
  have same (number : Number) :
      ((s.malloc env).strtol number).errno = (s.strtol number).errno := by
    simp only [Scan.strtol, mallocs.malloc_errno]
  by_cases fails : strtolFails (s.strtol (intOf env s.ints (intText n))).errno
      (toUnsigned (intOf env s.ints (intText n)).val).toNat = true
  next => simp [see, same, fails]
  next =>
    rw [see, same, if_neg fails, Bool.eq_false_iff.mpr fails, Bool.false_or, ← same]
    rfl

mutual
theorem refuses_see {env : Env} (mallocs : Allocates env) (v : Value) (s : Scan) (rest : List Token) :
    refuses env s.errno s.ints (tokens v ++ rest) =
      (see env s v).elim true fun (_, s') => refuses env s'.errno s'.ints rest := by
  match v with
  | .str data len =>
    rw [see, tokens, Option.elim_map, ← mallocs.malloc_errno s]
    exact refuses_text mallocs (s.malloc env) data rest
  | .int n => exact refuses_int mallocs s n rest
  | .list vs =>
    rw [see, tokens, Option.elim_map, ← mallocs.malloc_errno s]
    exact refuses_seeItems mallocs vs (s.malloc env) rest
  | .dict es =>
    rw [see, tokens, Option.elim_map, ← mallocs.malloc_errno s]
    exact refuses_seeEntries mallocs es (s.malloc env) rest

theorem refuses_seeItems {env : Env} (mallocs : Allocates env) (vs : List Value) (s : Scan) (rest : List Token) :
    refuses env s.errno s.ints (itemTokens vs ++ rest) =
      (seeItems env s vs).elim true fun (_, s') => refuses env s'.errno s'.ints rest := by
  match vs with
  | [] => rfl
  | v :: vs =>
    rw [itemTokens, List.append_assoc, refuses_see mallocs v s, seeItems]
    cases see env s v with
    | none => rfl
    | some result =>
      rw [Option.elim_some, Option.bind_some, Option.elim_map]
      change refuses env result.2.errno _ _ = _
      rw [← mallocs.malloc_errno result.2]
      exact refuses_seeItems mallocs vs (result.2.malloc env) rest

theorem refuses_seeEntries {env : Env} (mallocs : Allocates env) (es : List (Bytes × Value)) (s : Scan)
    (rest : List Token) :
    refuses env s.errno s.ints (entryTokens es ++ rest) =
      (seeEntries env s es).elim true fun (_, s') => refuses env s'.errno s'.ints rest := by
  match es with
  | [] => rfl
  | (key, v) :: es =>
    rw [entryTokens, List.cons_append, List.append_assoc, seeEntries, ← mallocs.malloc_errno s]
    refine (refuses_text mallocs (s.malloc env) key _).trans ?_
    cases seeText env (s.malloc env) key with
    | none => rfl
    | some s₁ =>
      rw [Option.elim_some, Option.bind_some, refuses_see mallocs v s₁]
      cases see env s₁ v with
      | none => rfl
      | some result =>
        rw [Option.elim_some, Option.bind_some, Option.elim_map]
        change refuses env result.2.errno _ _ = _
        rw [← mallocs.malloc_errno result.2]
        exact refuses_seeEntries mallocs es (result.2.malloc env) rest
end

theorem seeEntries_refused_iff {env : Env} (mallocs : Allocates env) (es : List (Bytes × Value)) (s : Scan) :
    seeEntries env s es = none ↔ refuses env s.errno s.ints (entryTokens es) = true := by
  have whole := refuses_seeEntries mallocs es s []
  rw [List.append_nil] at whole
  rw [whole]
  cases seeEntries env s es with
  | none => simp
  | some result => simp [refuses]

end BTServer.Bencode
