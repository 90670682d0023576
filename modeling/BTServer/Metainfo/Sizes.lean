import BTServer.Bencode.Refusal
import BTServer.Metainfo.Ownership
import BTServer.Metainfo.Projection

set_option autoImplicit false

namespace BTServer.Metainfo

open Bencode CString Outcome Keyed

mutual
def intsIn : Value → Nat
  | .str _ _ => 0
  | .int _ => 1
  | .list vs => intsInItems vs
  | .dict es => intsInEntries es

def intsInItems : List Value → Nat
  | [] => 0
  | v :: vs => intsIn v + intsInItems vs

def intsInEntries : List (Bytes × Value) → Nat
  | [] => 0
  | (_, v) :: es => intsIn v + intsInEntries es
end

-- The tree that the text gives behind `k` other integers, where a key ends at a NUL or after
-- `KEY_LEN` bytes and an integer has 32 bits.
mutual
def asRead (env : Env) (k : Nat) : Value → Value
  | .str data _ => .str data (data.length % 2 ^ 32)
  | .int n => .int (storedBits env k (intText n))
  | .list vs => .list (asReadItems env k vs)
  | .dict es => .dict (asReadEntries env k es)

def asReadItems (env : Env) (k : Nat) : List Value → List Value
  | [] => []
  | v :: vs => asRead env k v :: asReadItems env (k + intsIn v) vs

def asReadEntries (env : Env) (k : Nat) : List (Bytes × Value) → List (Bytes × Value)
  | [] => []
  | (key, v) :: es => (cutKey key, asRead env k v) :: asReadEntries env (k + intsIn v) es
end

section See

variable {env : Env}

theorem seeText_ints {s s' : Scan} {data : Bytes} (seen : seeText env s data = some s') :
    s'.ints = s.ints := by
  unfold seeText at seen
  split at seen
  next => contradiction
  next =>
    cases seen
    rfl

mutual
theorem see_asRead (v : Value) {v' : Value} {s s' : Scan} (seen : see env s v = some (v', s')) :
    v' = asRead env s.ints v ∧ s'.ints = s.ints + intsIn v := by
  match v with
  | .str data len =>
    obtain ⟨s₁, read, same⟩ := Option.map_eq_some_iff.mp seen
    cases same
    have ints := seeText_ints read
    rw [asRead, intsIn, Nat.add_zero]
    exact ⟨rfl, ints⟩
  | .int n =>
    simp only [see] at seen
    split at seen
    next => contradiction
    next =>
      cases seen
      rw [asRead, intsIn, intOf_stored env _ (denotes_intText n)]
      exact ⟨rfl, rfl⟩
  | .list vs =>
    obtain ⟨⟨vs', s₁⟩, inside, same⟩ := Option.map_eq_some_iff.mp seen
    cases same
    obtain ⟨rfl, ints⟩ := seeItems_asRead vs inside
    rw [asRead, intsIn]
    exact ⟨rfl, ints⟩
  | .dict es =>
    obtain ⟨⟨es', s₁⟩, inside, same⟩ := Option.map_eq_some_iff.mp seen
    cases same
    obtain ⟨rfl, ints⟩ := seeEntries_asRead es inside
    rw [asRead, intsIn]
    exact ⟨rfl, ints⟩

theorem seeItems_asRead (vs : List Value) {vs' : List Value} {s s' : Scan}
    (seen : seeItems env s vs = some (vs', s')) :
    vs' = asReadItems env s.ints vs ∧ s'.ints = s.ints + intsInItems vs := by
  match vs with
  | [] =>
    cases seen
    rw [asReadItems, intsInItems]
    exact ⟨rfl, rfl⟩
  | v :: vs =>
    obtain ⟨⟨v', s₁⟩, here, seen⟩ := Option.bind_eq_some_iff.mp seen
    obtain ⟨⟨vs', s₂⟩, others, same⟩ := Option.map_eq_some_iff.mp seen
    cases same
    obtain ⟨rfl, ints⟩ := see_asRead v here
    obtain ⟨rfl, later⟩ := seeItems_asRead vs others
    change s'.ints = s₁.ints + _ at later
    rw [asReadItems, intsInItems, later, ints, Nat.add_assoc, ← ints]
    exact ⟨rfl, rfl⟩

theorem seeEntries_asRead (es : List (Bytes × Value)) {es' : List (Bytes × Value)} {s s' : Scan}
    (seen : seeEntries env s es = some (es', s')) :
    es' = asReadEntries env s.ints es ∧ s'.ints = s.ints + intsInEntries es := by
  match es with
  | [] =>
    cases seen
    rw [asReadEntries, intsInEntries]
    exact ⟨rfl, rfl⟩
  | (key, v) :: es =>
    obtain ⟨s₁, read, seen⟩ := Option.bind_eq_some_iff.mp seen
    obtain ⟨⟨v', s₂⟩, here, seen⟩ := Option.bind_eq_some_iff.mp seen
    obtain ⟨⟨es', s₃⟩, others, same⟩ := Option.map_eq_some_iff.mp seen
    cases same
    have text := seeText_ints read
    change s₁.ints = s.ints at text
    obtain ⟨rfl, ints⟩ := see_asRead v here
    obtain ⟨rfl, later⟩ := seeEntries_asRead es others
    change s'.ints = s₂.ints + _ at later
    rw [asReadEntries, intsInEntries, later, ints, text, Nat.add_assoc, ← text, ← ints]
    exact ⟨rfl, rfl⟩
end

end See

def PlainKeys (ts : List Token) : Prop := ∀ key, .key key ∈ ts → ∀ c ∈ key, c ≠ 0

structure Seen (env : Env) (v v' : Value) : Prop where
  plain : PlainKeys (tokens v)
  seen : ∃ k, v' = asRead env k v

structure SeenEntry (env : Env) (e e' : Bytes × Value) : Prop where
  plain : ∀ c ∈ e.1, c ≠ 0
  key : e'.1 = cutKey e.1
  value : Seen env e.2 e'.2

theorem seen_items (env : Env) {vs : List Value} (k : Nat) (plain : PlainKeys (itemTokens vs)) :
    List.Forall₂ (Seen env) vs (asReadItems env k vs) := by
  induction vs generalizing k with
  | nil => exact .nil
  | cons v vs ih =>
    rw [itemTokens] at plain
    exact .cons ⟨fun key member => plain key (List.mem_append_left _ member), _, rfl⟩
      (ih _ fun key member => plain key (List.mem_append_right _ member))

theorem seen_entries (env : Env) {es : List (Bytes × Value)} (k : Nat)
    (plain : PlainKeys (entryTokens es)) :
    List.Forall₂ (SeenEntry env) es (asReadEntries env k es) := by
  induction es generalizing k with
  | nil => exact .nil
  | cons e es ih =>
    obtain ⟨key, v⟩ := e
    rw [entryTokens] at plain
    have inside : PlainKeys (tokens v) := fun key member =>
      plain key (List.mem_cons_of_mem _ (List.mem_append_left _ member))
    exact .cons ⟨plain key List.mem_cons_self, rfl, inside, _, rfl⟩
      (ih _ fun key member => plain key (List.mem_cons_of_mem _ (List.mem_append_right _ member)))

def SameSize (n stored : Int) : Prop := 0 ≤ n → n < 2 ^ 32 → stored = n

def Alike (env : Env) : Value → Value → Prop
  | .str _ _, .str _ _ => True
  | .int n, .int stored => SameSize n stored
  | .list vs, .list vs' => List.Forall₂ (Seen env) vs vs'
  | .dict es, .dict es' => List.Forall₂ (SeenEntry env) es es'
  | _, _ => False

section Seen

variable {env : Env} {v v' : Value} {e e' : Bytes × Value}

theorem Seen.alike (seen : Seen env v v') : Alike env v v' := by
  obtain ⟨plain, k, rfl⟩ := seen
  cases v with
  | str data len => trivial
  | int n =>
    intro low high
    obtain ⟨m, rfl⟩ := Int.eq_ofNat_of_zero_le low
    obtain ⟨used, number⟩ := intOf_small env k m (by omega)
    rw [← intOf_stored env k (denotes_intText m), number, toUnsigned_natCast,
      Nat.mod_eq_of_lt (by omega)]
  | list vs => exact seen_items env k plain
  | dict es => exact seen_entries env k plain

theorem numberOf_seen (seen : Seen env v v') :
    Option.Rel SameSize (numberOf v) (numberOf v') := by
  have alike := seen.alike
  cases v <;> cases v' <;> first | exact alike.elim | exact .none | exact .some alike

theorem dictOf_seen (seen : Seen env v v') :
    Option.Rel (List.Forall₂ (SeenEntry env)) (dictOf v) (dictOf v') := by
  have alike := seen.alike
  cases v <;> cases v' <;> first | exact alike.elim | exact .none | exact .some alike

/-- A key of the program is never as long as `KEY_LEN`, where keys are cut. -/
theorem SeenEntry.key_iff (seen : SeenEntry env e e') {key : Bytes} (short : key.length < keyLen) :
    e'.1 = key ↔ e.1 = key := by
  have cut : e'.1 = e.1.take keyLen := by
    rw [seen.key, cutKey, cstr, List.takeWhile_eq_self_iff.mpr (by simpa using seen.plain)]
  rw [cut]
  constructor
  · rintro rfl
    rw [List.length_take] at short
    rw [List.take_of_length_le (by omega)]
  · rintro rfl
    rw [List.take_of_length_le (Nat.le_of_lt short)]

theorem length_related (seen : SeenEntry env e e') :
    Option.Rel SameSize (under (ascii "length") numberOf e)
      (under (ascii "length") numberOf e') := by
  simp only [under, seen.key_iff (show (ascii "length").length < keyLen by decide)]
  split
  next => exact numberOf_seen seen.value
  next => exact .none

theorem infoOf_related (seen : SeenEntry env e e') :
    List.Forall₂ (SeenEntry env) (infoOf e) (infoOf e') := by
  have keys := seen.key_iff (show (ascii "info").length < keyLen by decide)
  have alike := seen.value.alike
  obtain ⟨key, v⟩ := e
  obtain ⟨key', v'⟩ := e'
  cases v <;> cases v' <;> first | exact alike.elim | exact .nil | skip
  next es es' =>
    simp only [infoOf, keys]
    split
    next => exact alike
    next => exact .nil

theorem filesOf_related (seen : SeenEntry env e e') :
    List.Forall₂ (List.Forall₂ (SeenEntry env)) (filesOf e) (filesOf e') := by
  have keys := seen.key_iff (show (ascii "files").length < keyLen by decide)
  have alike := seen.value.alike
  obtain ⟨key, v⟩ := e
  obtain ⟨key', v'⟩ := e'
  cases v <;> cases v' <;> first | exact alike.elim | exact .nil | skip
  next vs vs' =>
    simp only [filesOf, keys]
    split
    next => exact List.rel_filterMap (fun _ _ seen => dictOf_seen seen) alike
    next => exact .nil

end Seen

def Stores (given : Option Int) (stored : Int) : Prop := ∀ n : Nat, given = some ↑n → stored = n

def Fits (given : Option Int) : Prop := ∀ n : Nat, given = some ↑n → n < 2 ^ 32

/-- `info.length` and each `multi_files.length` hold the size that the torrent gives. -/
def ExactSizes (es : List (Bytes × Value)) (t : Torrent) : Prop :=
  Stores (last (ascii "length") numberOf (es.flatMap infoOf)) t.info.length.toNat ∧
    List.Forall₂ (fun file (stored : MultiFiles) =>
      Stores (last (ascii "length") numberOf file) stored.length.toNat)
      ((es.flatMap infoOf).flatMap filesOf) t.info.multi.filesList

def SmallSizes (es : List (Bytes × Value)) : Prop :=
  Fits (last (ascii "length") numberOf (es.flatMap infoOf)) ∧
    ∀ file ∈ (es.flatMap infoOf).flatMap filesOf, Fits (last (ascii "length") numberOf file)

-- A number that is looked for and not found is 0.
def FoundAgain (given found : Option Int) : Prop :=
  ∀ n : Nat, given = some ↑n → n < 2 ^ 32 → found.getD 0 = n

-- A key that ends at a NUL may be taken for one of those that lead to the sizes.
def SizesFoundAgain (env : Env) (k : Nat) (es : List (Bytes × Value)) : Prop :=
  FoundAgain (last (ascii "length") numberOf (es.flatMap infoOf))
      (last (ascii "length") numberOf ((asReadEntries env k es).flatMap infoOf)) ∧
    List.Forall₂ (fun file seen => FoundAgain (last (ascii "length") numberOf file)
      (last (ascii "length") numberOf seen)) ((es.flatMap infoOf).flatMap filesOf)
      (((asReadEntries env k es).flatMap infoOf).flatMap filesOf)

section Bound

variable {env : Env}

-- The values of these entries are such as the program reads.
def AllRead (env : Env) (es : List (Bytes × Value)) : Prop := ∀ e ∈ es, ∃ k v, e.2 = asRead env k v

theorem asReadEntries_allRead (k : Nat) (es : List (Bytes × Value)) :
    AllRead env (asReadEntries env k es) := by
  induction es generalizing k with
  | nil => exact fun e member => absurd member List.not_mem_nil
  | cons e es ih =>
    intro e' member
    rcases List.mem_cons.mp member with rfl | later
    next => exact ⟨k, e.2, rfl⟩
    next => exact ih _ e' later

theorem mem_asReadItems {k : Nat} {vs : List Value} {v' : Value} (member : v' ∈ asReadItems env k vs) :
    ∃ k v, v' = asRead env k v := by
  induction vs generalizing k with
  | nil => exact absurd member List.not_mem_nil
  | cons v vs ih =>
    rcases List.mem_cons.mp member with rfl | later
    next => exact ⟨k, v, rfl⟩
    next => exact ih later

theorem asRead_dict {k : Nat} {v : Value} {es' : List (Bytes × Value)}
    (read : asRead env k v = .dict es') : AllRead env es' := by
  cases v with
  | dict es =>
    cases read
    exact asReadEntries_allRead k es
  | str | int | list => cases read

theorem infoOf_allRead {es : List (Bytes × Value)} (all : AllRead env es) :
    AllRead env (es.flatMap infoOf) := by
  intro e member
  obtain ⟨⟨key, v⟩, inside, found⟩ := List.mem_flatMap.mp member
  obtain ⟨k, u, read⟩ := all _ inside
  cases v with
  | dict es' =>
    simp only [infoOf] at found
    split at found
    next => exact asRead_dict read.symm e found
    next => exact absurd found List.not_mem_nil
  | str | int | list => exact absurd found List.not_mem_nil

theorem filesOf_allRead {es : List (Bytes × Value)} (all : AllRead env es) :
    ∀ file ∈ es.flatMap filesOf, AllRead env file := by
  intro file member
  obtain ⟨⟨key, v⟩, inside, found⟩ := List.mem_flatMap.mp member
  obtain ⟨k, u, read⟩ := all _ inside
  cases v with
  | list vs' =>
    simp only [filesOf] at found
    split at found
    next =>
      obtain ⟨v', item, dict⟩ := List.mem_filterMap.mp found
      cases u with
      | list vs =>
        cases read
        obtain ⟨k', u', rfl⟩ := mem_asReadItems item
        cases content : asRead env k' u' with
        | dict es' =>
          rw [content] at dict
          cases dict
          exact asRead_dict content
        | str | int | list => simp [content, dictOf] at dict
      | str | int | dict => cases read
    next => exact absurd found List.not_mem_nil
  | str | int | dict => exact absurd found List.not_mem_nil

theorem last_bound {es : List (Bytes × Value)} (all : AllRead env es) (key : Bytes) :
    (last key numberOf es).getD 0 < 2 ^ 32 := by
  cases found : last key numberOf es with
  | none => decide
  | some n =>
    obtain ⟨⟨key', v⟩, inside, here⟩ := List.mem_filterMap.mp (List.mem_of_getLast? found)
    obtain ⟨k, u, read⟩ := all _ inside
    simp only [under] at here
    split at here
    next =>
      cases v with
      | int m =>
        cases here
        cases u with
        | int m =>
          cases read
          exact Int.emod_lt_of_pos _ (by decide)
        | str | list | dict => cases read
      | str | list | dict => simp [numberOf] at here
    next => simp at here

end Bound

theorem stores_iff {given found : Option Int} (bound : found.getD 0 < 2 ^ 32) :
    Stores given (found.getD 0) ↔ Fits given ∧ FoundAgain given found := by
  constructor
  · intro stores
    refine ⟨fun n here => ?_, fun n here _ => stores n here⟩
    have same := stores n here
    omega
  · rintro ⟨fits, again⟩ n here
    exact again n here (fits n here)

theorem forall₂_congr_right {α β : Type} {R S : α → β → Prop} {xs : List α} {ys : List β}
    (each : ∀ y ∈ ys, ∀ x, R x y ↔ S x y) : List.Forall₂ R xs ys ↔ List.Forall₂ S xs ys := by
  induction ys generalizing xs with
  | nil => simp
  | cons y ys ih =>
    obtain ⟨here, later⟩ := List.forall_mem_cons.mp each
    simp only [List.forall₂_cons_right_iff, here, ih later]

theorem exactSizes_iff {env : Env} {k : Nat} {es : List (Bytes × Value)} {t : Torrent}
    (view : t.view = TorrentView.update {} (asReadEntries env k es)) :
    ExactSizes es t ↔ SmallSizes es ∧ SizesFoundAgain env k es := by
  have infos := infoOf_allRead (@asReadEntries_allRead env k es)
  have length : (t.info.length.toNat : Int) =
      (last (ascii "length") numberOf ((asReadEntries env k es).flatMap infoOf)).getD 0 :=
    congrArg (fun view => view.info.length) view
  have stored : t.info.multi.filesList.map MultiFiles.view =
      (((asReadEntries env k es).flatMap infoOf).flatMap filesOf).map (FileView.update {}) :=
    congrArg (fun view => view.info.files) view
  have members : List.Forall₂ (fun file (stored : MultiFiles) =>
      Stores (last (ascii "length") numberOf file) stored.length.toNat)
        ((es.flatMap infoOf).flatMap filesOf) t.info.multi.filesList ↔
      List.Forall₂ (fun file view => Stores (last (ascii "length") numberOf file)
        (FileView.length view)) ((es.flatMap infoOf).flatMap filesOf)
        (t.info.multi.filesList.map MultiFiles.view) := by
    rw [List.forall₂_map_right_iff]
    rfl
  rw [ExactSizes, SmallSizes, SizesFoundAgain, length, stores_iff (last_bound infos _), members,
    stored, List.forall₂_map_right_iff, and_and_and_comm, ← List.forall₂_and_left]
  apply and_congr_right
  intro _
  exact forall₂_congr_right fun seen member file =>
    stores_iff (last_bound (filesOf_allRead infos seen member) _)

theorem torrent_sizes_exact_iff (env : Env) (st st₁ : St) (t : Torrent)
    (es : List (Bytes × Value)) (rest : Bytes) (mallocs : Allocates env)
    (whole : env.buf = enc (.dict es) ++ rest) (new : torrentAlloc env st = (some t, st₁)) :
    (∃ enough, ∀ fuel, enough ≤ fuel → ∃ status t' st',
      torrentParse env fuel st₁ t = .done (status, t') st' ∧ (status ≠ 0 ∨ ExactSizes es t')) ↔
      refuses env st.errno st.ints (entryTokens es) = true ∨
        SmallSizes es ∧ SizesFoundAgain env st.ints es := by
  have same : st₁ = st.malloc env := by
    rw [torrentAlloc, if_pos (mallocs _)] at new
    cases new
    rfl
  have errno : ((st.malloc env).malloc env).errno = st.errno :=
    (mallocs.malloc_errno _).trans (mallocs.malloc_errno _)
  have refused := seeEntries_refused_iff mallocs es ((st.malloc env).malloc env).toScan
  rw [errno] at refused
  obtain ⟨enough, parses⟩ := torrentParse_enc mallocs es rest whole new
  rw [same] at parses ⊢
  cases read : seeEntries env ((st.malloc env).malloc env).toScan es with
  | none =>
    simp only [read] at parses
    constructor
    · exact fun _ => .inl (refused.mp read)
    · intro _
      refine ⟨enough, fun fuel large => ?_⟩
      obtain ⟨status, t', st', parsed, rfl⟩ := parses fuel large
      exact ⟨-1, t', st', parsed, .inl (by decide)⟩
  | some result =>
    simp only [read] at parses
    have accepted : ¬ refuses env st.errno st.ints (entryTokens es) = true := by
      intro refuse
      rw [refused.mpr refuse] at read
      contradiction
    obtain ⟨seen, -⟩ := seeEntries_asRead es read
    rw [or_iff_right accepted]
    constructor
    · rintro ⟨enough', exact⟩
      obtain ⟨status, t', st', parsed, rfl, view⟩ := parses (max enough enough') (Nat.le_max_left _ _)
      obtain ⟨status', t'', st'', again, right⟩ := exact (max enough enough') (Nat.le_max_right _ _)
      rw [parsed] at again
      cases again
      rw [seen] at view
      exact (exactSizes_iff view).mp (right.resolve_left (by simp))
    · intro kept
      refine ⟨enough, fun fuel large => ?_⟩
      obtain ⟨status, t', st', parsed, rfl, view⟩ := parses fuel large
      rw [seen] at view
      exact ⟨0, t', st', parsed, .inr ((exactSizes_iff view).mpr kept)⟩

theorem sizesFoundAgain_of_plain (env : Env) (k : Nat) {es : List (Bytes × Value)}
    (plain : PlainKeys (entryTokens es)) : SizesFoundAgain env k es := by
  have seen := seen_entries env k plain
  have infos := List.rel_flatMap seen fun _ _ => infoOf_related
  have files := List.rel_flatMap infos fun _ _ => filesOf_related
  have found {es es' : List (Bytes × Value)} (seen : List.Forall₂ (SeenEntry env) es es') :
      FoundAgain (last (ascii "length") numberOf es) (last (ascii "length") numberOf es') := by
    intro n given small
    have related := last_related (ascii "length") numberOf numberOf (fun _ _ => length_related) seen
    rw [given] at related
    generalize last (ascii "length") numberOf es' = found at related ⊢
    cases related with
    | some same => exact same (by omega) (by omega)
  exact ⟨found infos, files.imp fun _ _ => found⟩

theorem torrent_sizes_exact_of_file :
    ∃ t st, torrentAlloc (.plentiful (ascii "d4:infod5:filesld6:lengthi5eee6:lengthi4294967295eee"))
        (start 0) = (some t, st) ∧
      ∃ enough, ∀ fuel, enough ≤ fuel → ∃ status t' st',
        torrentParse (.plentiful (ascii "d4:infod5:filesld6:lengthi5eee6:lengthi4294967295eee")) fuel
          st t = .done (status, t') st' ∧
          (status ≠ 0 ∨ ExactSizes [(ascii "info", .dict
            [(ascii "files", .list [.dict [(ascii "length", .int 5)]]),
              (ascii "length", .int 4294967295)])] t') := by
  refine ⟨_, _, rfl, (torrent_sizes_exact_iff _ _ _ _ _ [] (fun _ => rfl) (by decide) rfl).mpr
    (.inr ⟨?_, sizesFoundAgain_of_plain _ _ ?_⟩)⟩
  · simp [SmallSizes, Fits, infoOf, filesOf, dictOf, last, under, numberOf, ascii]
    exact ⟨fun n given => by omega, fun n given => by omega⟩
  · simp [PlainKeys, entryTokens, itemTokens, tokens, ascii]

def statusAndLength : Outcome St (Int × Torrent) → Option (Int × Nat)
  | .done (status, t) _ => some (status, t.info.length.toNat)
  | _ => none

/-- A size of 4 GiB is stored as 0. -/
theorem length_wraps_to_zero :
    ascii "d4:infod6:lengthi4294967296eee" =
        enc (.dict [(ascii "info", .dict [(ascii "length", .int 4294967296)])]) ∧
      ∃ t st, torrentAlloc (.plentiful (ascii "d4:infod6:lengthi4294967296eee"))
          (start 0) = (some t, st) ∧
        ∃ t' st', torrentParse (.plentiful (ascii "d4:infod6:lengthi4294967296eee"))
          8 st t = .done (0, t') st' ∧
          ¬ ExactSizes [(ascii "info", .dict [(ascii "length", .int 4294967296)])] t' := by
  refine ⟨by decide, _, _, rfl, ?_⟩
  generalize parsed : torrentParse _ 8 _ _ = result
  have stored : statusAndLength result = some (0, 0) := by
    rw [← parsed]
    decide +kernel
  cases result with
  | done result st' =>
    obtain ⟨status, t'⟩ := result
    simp only [statusAndLength, Option.some.injEq, Prod.mk.injEq] at stored
    obtain ⟨rfl, zero⟩ := stored
    refine ⟨t', st', rfl, fun exact => ?_⟩
    have wrong := exact.1 4294967296 rfl
    rw [zero] at wrong
    exact absurd wrong (by decide)
  | _ => contradiction

end BTServer.Metainfo
