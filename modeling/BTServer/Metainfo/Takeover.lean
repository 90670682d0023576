import BTServer.Bencode.Messages
import BTServer.Metainfo.Print

set_option autoImplicit false

namespace BTServer.Metainfo

open Bencode CString Outcome

def granted (env : Env) (m : Nat) : Nat → Nat
  | 0 => 0
  | n + 1 => if env.alloc m then granted env (m + 1) n + 1 else 0

theorem granted_le (env : Env) (m n : Nat) : granted env m n ≤ n := by
  induction n generalizing m with
  | zero => exact Nat.le_refl 0
  | succ n ih =>
    rw [granted]
    split
    next => exact Nat.succ_le_succ (ih (m + 1))
    next => exact Nat.zero_le _

theorem granted_add (env : Env) (m a b : Nat) :
    granted env m (a + b) =
      if granted env m a = a then a + granted env (m + a) b else granted env m a := by
  induction a generalizing m with
  | zero => simp [granted]
  | succ a ih =>
    rw [Nat.succ_add, granted, granted, ih]
    split
    next =>
      rw [show m + 1 + a = m + (a + 1) by omega]
      simp only [Nat.add_right_cancel_iff]
      split
      next => omega
      next => rfl
    next => simp

-- A loop over entries that fills a structure: how its contents follow from the entries, how many
-- blocks an entry asks for, and what is left of an entry when only so many of them are there.
structure Level (T C V : Type) where
  view : T → V
  update : V → List C → V
  count : C → Nat
  cut : Nat → C → List C
  none : ∀ v, update v [] = v
  more : ∀ v es later, update v (es ++ later) = update (update v es) later

namespace Level

variable {T C V : Type} (level : Level T C V)

def total (cs : List C) : Nat := (cs.map level.count).sum

def cutAt : Nat → List C → List C
  | _, [] => []
  | k, c :: cs => if level.count c ≤ k then c :: cutAt (k - level.count c) cs else level.cut k c

@[simp] theorem total_nil : level.total [] = 0 := rfl

@[simp] theorem total_cons (c : C) (cs : List C) :
    level.total (c :: cs) = level.count c + level.total cs := rfl

@[simp] theorem total_append (cs ds : List C) :
    level.total (cs ++ ds) = level.total cs + level.total ds := by
  simp [total]

theorem cutAt_append (k : Nat) (cs ds : List C) :
    level.cutAt k (cs ++ ds) =
      if level.total cs ≤ k then cs ++ level.cutAt (k - level.total cs) ds
      else level.cutAt k cs := by
  induction cs generalizing k with
  | nil => simp
  | cons c cs ih =>
    rw [List.cons_append, cutAt, cutAt, ih, total_cons]
    by_cases first : level.count c ≤ k
    next =>
      rw [if_pos first, if_pos first, Nat.sub_sub]
      by_cases all : level.total cs ≤ k - level.count c
      next => rw [if_pos all, if_pos (by omega), List.cons_append]
      next => rw [if_neg all, if_neg (by omega)]
    next => rw [if_neg first, if_neg first, if_neg (by omega)]

theorem cutAt_all {k : Nat} {cs : List C} (all : level.total cs ≤ k) : level.cutAt k cs = cs := by
  have whole := level.cutAt_append k cs []
  rwa [List.append_nil, if_pos all, cutAt, List.append_nil] at whole

def taken (env : Env) (m : Nat) (cs : List C) : List C :=
  level.cutAt (granted env m (level.total cs)) cs

theorem taken_append (env : Env) (m : Nat) (cs ds : List C) :
    level.taken env m (cs ++ ds) =
      if granted env m (level.total cs) = level.total cs then
        cs ++ level.taken env (m + level.total cs) ds
      else level.taken env m cs := by
  rw [taken, total_append, granted_add, cutAt_append]
  have most := granted_le env m (level.total cs)
  split
  next => rw [if_pos (Nat.le_add_right _ _), Nat.add_sub_cancel_left, taken]
  next less => rw [if_neg (by omega), taken]

theorem taken_free {env : Env} {m : Nat} {cs : List C} (free : level.total cs = 0) :
    level.taken env m cs = cs :=
  level.cutAt_all (by omega)

structure Fills {E : Type} (env : Env) (cs : List C) (st : St) (t : T) (step : Step T E) :
    Prop where
  adds : AddsFitting st step.st
  succeeds : step.status = 0 ↔ granted env st.mallocs (level.total cs) = level.total cs
  counts : step.status = 0 → step.st.mallocs = st.mallocs + level.total cs
  stored : level.view step.target = level.update (level.view t) (level.taken env st.mallocs cs)

variable {level}

theorem fills_free {E : Type} {env : Env} {cs : List C} {st : St} {t : T} {step : Step T E}
    (free : level.total cs = 0) (success : step.status = 0) (same : step.st = st)
    (stored : level.view step.target = level.update (level.view t) cs) :
    level.Fills env cs st t step where
  adds := same ▸ .refl st
  succeeds := iff_of_true success (by rw [free, granted])
  counts _ := by rw [same, free, Nat.add_zero]
  stored := by rw [level.taken_free free, stored]

theorem forEach_fills {E : Type} {env : Env} {step : St → T → E → Step T E} {content : E → List C}
    (round : ∀ st t e, level.Fills env (content e) st t (step st t e)) (st : St) (t : T)
    (es : List E) : level.Fills env (es.flatMap content) st t (forEach step st t es) := by
  induction es generalizing st t with
  | nil => exact fills_free rfl rfl rfl (level.none _).symm
  | cons e es ih =>
    have here := round st t e
    have later := ih (step st t e).st (step st t e).target
    have less := granted_le env st.mallocs (level.total (content e))
    rw [List.flatMap_cons, forEach]
    dsimp only
    split
    next going =>
      have enough := here.succeeds.mp going
      have count := here.counts going
      refine ⟨here.adds.trans later.adds, ?_, fun success => ?_, ?_⟩
      · rw [level.total_append, granted_add, if_pos enough, ← count]
        exact later.succeeds.trans (by omega)
      · rw [later.counts success, count, level.total_append, Nat.add_assoc]
      · rw [level.taken_append, if_pos enough, level.more, ← count]
        refine later.stored.trans ?_
        rw [here.stored, taken, level.cutAt_all enough.ge]
    next stopped =>
      have short : ¬ granted env st.mallocs (level.total (content e)) = level.total (content e) :=
        fun enough => stopped (here.succeeds.mpr enough)
      refine ⟨here.adds, iff_of_false stopped ?_, fun success => absurd success stopped, ?_⟩
      · rw [level.total_append, granted_add, if_neg short]
        omega
      · rw [level.taken_append, if_neg short]
        exact here.stored

end Level

def filesLevel : Level InfoMultiFile Value (List FileView × Option BString) where
  view multi := (multi.filesList.map MultiFiles.view, multi.dirName)
  update v vs := (v.1 ++ (vs.filterMap dictOf).map (FileView.update {}), v.2)
  count v := (dictOf v).elim 0 fun _ => 1
  cut _ _ := []
  none := by simp
  more := by simp

def infoLevel : Level TorrentInfo (Bytes × Value) InfoView where
  view := TorrentInfo.view
  update := InfoView.update
  count e := (filesOf e).length
  cut
    | k, (key, .list vs) => [(key, .list (filesLevel.cutAt k vs))]
    | _, _ => []
  none := InfoView.update_nil
  more := InfoView.update_append

def torrentLevel : Level Torrent (Bytes × Value) TorrentView where
  view := Torrent.view
  update := TorrentView.update
  count e := infoLevel.total (infoOf e)
  cut
    | k, (key, .dict es) => [(key, .dict (infoLevel.cutAt k es))]
    | _, _ => []
  none := TorrentView.update_nil
  more := TorrentView.update_append

section Fills

variable {env : Env}

theorem filesLevel_total (vs : List Value) :
    filesLevel.total vs = (vs.filterMap dictOf).length := by
  induction vs with
  | nil => rfl
  | cons v vs ih =>
    rw [Level.total_cons, ih, List.filterMap_cons]
    cases type : dictOf v with
    | none => simp [filesLevel, type]
    | some es => simp [filesLevel, type, Nat.add_comm]

theorem infoLevel_files (m : Nat) (vs : List Value) :
    infoLevel.total [(ascii "files", .list vs)] = filesLevel.total vs ∧
      infoLevel.taken env m [(ascii "files", .list vs)] =
        [(ascii "files", .list (filesLevel.taken env m vs))] := by
  have total : infoLevel.total [(ascii "files", .list vs)] = filesLevel.total vs := by
    rw [filesLevel_total]
    simp [infoLevel, Level.total, filesOf]
  refine ⟨total, ?_⟩
  rw [Level.taken, total, Level.cutAt, Level.cutAt]
  split
  next all =>
    rw [Level.taken, filesLevel.cutAt_all (total.ge.trans all)]
  next => rfl

theorem torrentLevel_total (es : List (Bytes × Value)) :
    torrentLevel.total es = infoLevel.total (es.flatMap infoOf) := by
  induction es with
  | nil => rfl
  | cons e es ih =>
    rw [Level.total_cons, ih, List.flatMap_cons, Level.total_append]
    rfl

theorem torrentLevel_info (m : Nat) (es : List (Bytes × Value)) :
    torrentLevel.total [(ascii "info", .dict es)] = infoLevel.total es ∧
      torrentLevel.taken env m [(ascii "info", .dict es)] =
        [(ascii "info", .dict (infoLevel.taken env m es))] := by
  have total : torrentLevel.total [(ascii "info", .dict es)] = infoLevel.total es := by
    simp [torrentLevel, Level.total, infoOf]
  refine ⟨total, ?_⟩
  rw [Level.taken, total, Level.cutAt, Level.cutAt]
  split
  next all =>
    rw [Level.taken, infoLevel.cutAt_all (total.ge.trans all)]
  next => rfl

theorem forEach_st {T E : Type} {step : St → T → E → Step T E}
    (round : ∀ st t e, (step st t e).st = st) (st : St) (t : T) (es : List E) :
    (forEach step st t es).st = st := by
  induction es generalizing st t with
  | nil => rfl
  | cons e es ih =>
    rw [forEach]
    dsimp only
    split
    next => exact (ih _ _).trans (round st t e)
    next => exact round st t e

theorem multiFilesEntry_st (st : St) (ptr : MultiFiles) (vec : DEntry BValue) :
    (multiFilesEntry st ptr vec).st = st := by
  unfold multiFilesEntry
  split
  next => rfl
  split
  next => rfl
  split
  next => rfl
  next => rfl

theorem torrentInfoFile_fills (st : St) (multi : InfoMultiFile) (vec : LEntry BValue) :
    filesLevel.Fills env [vec.entry.erase] st multi (torrentInfoFile env st multi vec) := by
  have update := @torrentInfoFile_update env st multi vec
  cases entry : vec.entry with
  | dict d =>
    have one : filesLevel.total [(BValue.dict d).erase] = 1 := by
      simp [filesLevel, Level.total, BValue.erase, dictOf]
    rw [entry] at update
    cases node : env.alloc st.mallocs with
    | true =>
      have all : granted env st.mallocs 1 = 1 := by simp [granted, node]
      have taken : filesLevel.taken env st.mallocs [(BValue.dict d).erase] =
          [(BValue.dict d).erase] := by
        rw [Level.taken, one, all]
        exact filesLevel.cutAt_all one.le
      have same := forEach_st multiFilesEntry_st (st.malloc env)
        { node := st.mallocs, length := 0, path := none, pathUtf8 := none } d.entries
      simp only [torrentInfoFile, entry, multiFilesAlloc, node, if_true] at update ⊢
      refine ⟨?_, iff_of_true rfl (by rw [one, all]), fun _ => ?_, ?_⟩
      · dsimp only
        rw [same]
        exact .refl st
      · rw [one, same]
        rfl
      · rw [taken]
        exact update trivial
    | false =>
      have none : granted env st.mallocs 1 = 0 := by simp [granted, node]
      simp only [torrentInfoFile, entry, multiFilesAlloc, node, Bool.false_eq_true, if_false]
      refine ⟨addsFitting_print _ ((Trace.fits_iff _).mpr (by decide)), iff_of_false (by simp) ?_,
        by simp, ?_⟩
      · rw [one, none]
        exact Nat.zero_ne_one
      · rw [Level.taken, one, none]
        exact (filesLevel.none _).symm
  | _ =>
    rw [entry] at update
    refine Level.fills_free (by simp [filesLevel, Level.total, BValue.erase, dictOf]) ?_ ?_ ?_
    · simp only [torrentInfoFile, entry]
    · simp only [torrentInfoFile, entry]
    · exact update (by simp only [torrentInfoFile, entry])

theorem torrentInfoEntry_fills (st : St) (info : TorrentInfo) (vec : DEntry BValue) :
    infoLevel.Fills env (entryContent vec) st info (torrentInfoEntry env st info vec) := by
  rcases torrentInfoEntry_cases st info vec with ⟨l, found, round⟩ | ⟨other, status, -, same⟩
  next =>
    have inside := Level.forEach_fills (@torrentInfoFile_fills env) st info.multi l.entries
    rw [← eraseItems_flatMap] at inside
    have content : entryContent vec = [(ascii "files", .list (eraseItems l.entries))] :=
      entryContent_found (listAt_some found)
    obtain ⟨total, taken⟩ := @infoLevel_files env st.mallocs (eraseItems l.entries)
    rw [content, round]
    refine ⟨inside.adds, total ▸ inside.succeeds, total ▸ inside.counts, ?_⟩
    rw [taken]
    have files : ((forEach (torrentInfoFile env) st info.multi l.entries).target.filesList.map
        MultiFiles.view, (forEach (torrentInfoFile env) st info.multi l.entries).target.dirName) =
        (info.multi.filesList.map MultiFiles.view ++ ((filesLevel.taken env st.mallocs
          (eraseItems l.entries)).filterMap dictOf).map (FileView.update {}), info.multi.dirName) :=
      inside.stored
    simp only [Prod.mk.injEq] at files
    have listed (vs : List Value) : [(ascii "files", Value.list vs)].flatMap filesOf =
        vs.filterMap dictOf := by simp [filesOf]
    simp only [infoLevel, TorrentInfo.view, InfoView.update, files.1, files.2, listed]
    rfl
  next =>
    refine Level.fills_free ?_ status same (torrentInfoEntry_update st info vec status)
    have none := congrArg List.length (files_missing other)
    rw [List.length_flatMap] at none
    exact none

theorem torrentEntry_fills (st : St) (t : Torrent) (vec : DEntry BValue) :
    torrentLevel.Fills env (entryContent vec) st t (torrentEntry env st t vec) := by
  have update := @torrentEntry_update env st t vec
  rcases torrentEntry_cases st t vec with ⟨d, found, round⟩ | ⟨l, found, round⟩ | other
  next =>
    have inside := Level.forEach_fills (@torrentInfoEntry_fills env) st t.info d.entries
    rw [← eraseEntries_flatMap] at inside
    have content : entryContent vec = [(ascii "info", .dict (eraseEntries d.entries))] :=
      entryContent_found (dictAt_some found)
    obtain ⟨total, taken⟩ := @torrentLevel_info env st.mallocs (eraseEntries d.entries)
    rw [content, round]
    refine ⟨inside.adds, total ▸ inside.succeeds, total ▸ inside.counts, ?_⟩
    rw [taken]
    have info : (forEach (torrentInfoEntry env) st t.info d.entries).target.view =
        t.info.view.update (infoLevel.taken env st.mallocs (eraseEntries d.entries)) :=
      inside.stored
    have inner (es : List (Bytes × Value)) : [(ascii "info", Value.dict es)].flatMap infoOf = es := by
      simp [infoOf]
    simp only [torrentLevel, torrentInfoParse, Torrent.view, TorrentView.update, info, inner]
    rfl
  next =>
    rw [round] at update ⊢
    refine Level.fills_free ?_ rfl rfl (update rfl)
    rw [entryContent_found (listAt_some found)]
    rfl
  next =>
    obtain ⟨noInfo, status, -, -, same⟩ := other
    refine Level.fills_free ?_ status same (update status)
    rw [torrentLevel_total, info_missing noInfo, Level.total_nil]

theorem torrent_fills (st : St) (t : Torrent) (entries : List (DEntry BValue)) :
    torrentLevel.Fills env (eraseEntries entries) st t (forEach (torrentEntry env) st t entries) := by
  rw [eraseEntries_flatMap]
  exact Level.forEach_fills (@torrentEntry_fills env) st t entries

end Fills

section Parse

variable (env : Env) (s : Scan)

/-- A new torrent takes these entries over, as far as there is memory for its files. -/
def TakenOver (es : List (Bytes × Value)) : Prop :=
  env.alloc s.mallocs = true ∧ env.alloc (s.malloc env).mallocs = true ∧ ∃ w rest all s',
    env.buf = 100 :: (w ++ 101 :: rest) ∧
      Reads env .any ((s.malloc env).malloc env) w (.entries all) s' ∧
      es = torrentLevel.taken env s'.mallocs all

variable {env} {s}

theorem torrentParse_returned {fuel : Nat} {t t' : Torrent} {st₁ st' : St} {status : Int}
    (new : torrentAlloc env ⟨s, [], []⟩ = (some t, st₁))
    (parsed : torrentParse env fuel st₁ t = .done (status, t') st') :
    WholeTorrent t' ∧
      (t'.view = {} ∨ ∃ es, TakenOver env s es ∧ t'.view = TorrentView.update {} es) := by
  obtain ⟨node, rfl, empty, whole⟩ := torrentAlloc_some new
  unfold torrentParse at parsed
  split at parsed
  next dict =>
    obtain ⟨⟨next, d⟩, st₂, read, stored⟩ := andThen_eq_done parsed
    cases next with
    | none =>
      cases stored
      exact ⟨whole, .inl empty⟩
    | some q =>
      simp only [Outcome.done.injEq, Prod.mk.injEq] at stored
      obtain ⟨⟨-, rfl⟩, -⟩ := stored
      have built := (parse_whole env fuel).dict (St.malloc env (St.malloc env ⟨s, [], []⟩)) 0
        (bDictAlloc (St.malloc env ⟨s, [], []⟩).mallocs)
        (.dict (by simp [bDictAlloc]) (by simp [bDictAlloc]))
      rw [read] at built
      obtain ⟨w, rest, buf, -, reads⟩ := dict_of_accepted read
      cases built with
      | dict entries values =>
        refine ⟨forEach_invariant torrentEntry_whole _ whole values, .inr ⟨_, ⟨node, dict, w, rest,
          _, _, buf, reads, rfl⟩, ?_⟩⟩
        exact empty ▸ (torrent_fills st₂ t d.entries).stored
  next =>
    cases parsed
    exact ⟨whole, .inl empty⟩

theorem torrentParse_read {fuel q : Nat} {st st₁ : St} {t : Torrent} {d : BDict}
    (node : env.alloc st.mallocs = true)
    (read : bDictParse env fuel (st.malloc env) 0 (bDictAlloc st.mallocs) = .done (some q, d) st₁) :
    ∃ st', torrentParse env fuel st t =
      .done ((forEach (torrentEntry env) st₁ t d.entries).status,
        (forEach (torrentEntry env) st₁ t d.entries).target) st' := by
  rw [torrentParse, if_pos node, read, done_andThen]
  exact ⟨_, rfl⟩

theorem parsed_of_takenOver {es : List (Bytes × Value)} (taken : TakenOver env s es) :
    ∃ fuel t st₁ status t' st', torrentAlloc env ⟨s, [], []⟩ = (some t, st₁) ∧
      torrentParse env fuel st₁ t = .done (status, t') st' ∧
        t'.view = TorrentView.update {} es := by
  obtain ⟨node, dict, w, rest, all, s', whole, reads, rfl⟩ := taken
  obtain ⟨enough, accepts⟩ := reads_accepts reads
  have here : env.At 0 (100 :: (w ++ 101 :: rest)) := whole ▸ env.at_zero
  obtain ⟨d, st₂, loop, contents, rfl⟩ := accepts enough le_rfl
    (St.malloc env (St.malloc env ⟨s, [], []⟩)) 1 rest (bDictAlloc (s.malloc env).mallocs) rfl
    here.next
  change eraseEntries d.entries = [] ++ all at contents
  rw [List.nil_append] at contents
  obtain ⟨t, new⟩ : ∃ t, torrentAlloc env ⟨s, [], []⟩ = (some t, St.malloc env ⟨s, [], []⟩) :=
    ⟨_, if_pos node⟩
  have read := (bDictParse_enter env enough _ 0 _ _ here).trans loop
  have stored := (@torrent_fills env st₂ t d.entries).stored
  rw [contents] at stored
  obtain ⟨st', parsed⟩ := torrentParse_read (t := t) dict read
  exact ⟨enough + 1, t, _, _, _, st', new, parsed, (torrentAlloc_some new).2.2.1 ▸ stored⟩

end Parse

end BTServer.Metainfo
