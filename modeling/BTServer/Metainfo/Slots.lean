import BTServer.Bencode.Ownership
import BTServer.Metainfo.Model

set_option autoImplicit false

namespace BTServer.Metainfo

open Bencode CString Heap

-- The members of a torrent that take over a value. The files have one of each kind apiece.
inductive Slot where
  | announce
  | announceList
  | comment
  | commentUtf8
  | createBy
  | pieceHash
  | private_
  | name
  | nameUtf8
  | md5sum
  | publisher
  | publisherUtf8
  | publisherUrl
  | publisherUrlUtf8
  | dirName
  | path (file : Nat)
  | pathUtf8 (file : Nat)
  deriving DecidableEq

def fileSlot (file : Nat) : Bytes × Value → Option Slot
  | (key, .list _) => List.lookup key
      [(ascii "path", .path file), (ascii "path.utf-8", .pathUtf8 file)]
  | _ => none

def infoSlot : Bytes × Value → Option Slot
  | (key, .str _ _) => List.lookup key
      [(ascii "pieces", .pieceHash), (ascii "name", .name), (ascii "name.utf-8", .nameUtf8),
        (ascii "publisher", .publisher), (ascii "private", .private_), (ascii "md5sum", .md5sum),
        (ascii "publisher utf-8", .publisherUtf8), (ascii "publisher url", .publisherUrl),
        (ascii "publisher url utf-8", .publisherUrlUtf8)]
  | _ => none

def topSlot : Bytes × Value → Option Slot
  | (key, .str _ _) => List.lookup key
      [(ascii "announce", .announce), (ascii "comment", .comment),
        (ascii "comment-utf8", .commentUtf8), (ascii "create by", .createBy)]
  | (key, .list _) => List.lookup key [(ascii "announce-list", .announceList)]
  | _ => none

def dictOf : Value → Option (List (Bytes × Value))
  | .dict es => some es
  | _ => none

def filesOf : Bytes × Value → List (List (Bytes × Value))
  | (key, .list vs) => if key = ascii "files" then vs.filterMap dictOf else []
  | _ => []

def infoOf : Bytes × Value → List (Bytes × Value)
  | (key, .dict es) => if key = ascii "info" then es else []
  | _ => []

def filesSlots : Nat → List (List (Bytes × Value)) → List Slot
  | _, [] => []
  | file, es :: files => es.filterMap (fileSlot file) ++ filesSlots (file + 1) files

def infoSlots (file : Nat) (es : List (Bytes × Value)) : List Slot :=
  es.filterMap infoSlot ++ filesSlots file (es.flatMap filesOf)

def slots (file : Nat) (es : List (Bytes × Value)) : List Slot :=
  es.filterMap topSlot ++ infoSlots file (es.flatMap infoOf)

theorem filesSlots_append (file : Nat) (front back : List (List (Bytes × Value))) :
    filesSlots file (front ++ back) =
      filesSlots file front ++ filesSlots (file + front.length) back := by
  induction front generalizing file with
  | nil => simp [filesSlots]
  | cons es front ih =>
    rw [List.cons_append, filesSlots, ih, filesSlots, List.length_cons, List.append_assoc,
      Nat.add_assoc, Nat.add_comm 1]

theorem infoSlots_append (file : Nat) (front back : List (Bytes × Value)) :
    (infoSlots file (front ++ back)).Perm
      (infoSlots file front ++ infoSlots (file + (front.flatMap filesOf).length) back) := by
  rw [List.perm_iff_count]
  intro slot
  simp only [infoSlots, List.filterMap_append, List.flatMap_append, filesSlots_append,
    List.count_append]
  omega

theorem slots_append (file : Nat) (front back : List (Bytes × Value)) :
    (slots file (front ++ back)).Perm (slots file front ++
      slots (file + ((front.flatMap infoOf).flatMap filesOf).length) back) := by
  have inner := infoSlots_append file (front.flatMap infoOf) (back.flatMap infoOf)
  rw [List.perm_iff_count] at inner ⊢
  intro slot
  have same := inner slot
  simp only [slots, List.filterMap_append, List.flatMap_append, List.count_append] at same ⊢
  omega

def held (t : Torrent) : Slot → List Nat
  | .announce => stringFree t.announce
  | .announceList => listFree t.announceList
  | .comment => stringFree t.comment
  | .commentUtf8 => stringFree t.commentUtf8
  | .createBy => stringFree t.createBy
  | .pieceHash => stringFree t.info.pieceHash
  | .private_ => stringFree t.info.private_
  | .name => stringFree t.info.name
  | .nameUtf8 => stringFree t.info.nameUtf8
  | .md5sum => stringFree t.info.md5sum
  | .publisher => stringFree t.info.publisher
  | .publisherUtf8 => stringFree t.info.publisherUtf8
  | .publisherUrl => stringFree t.info.publisherUrl
  | .publisherUrlUtf8 => stringFree t.info.publisherUrlUtf8
  | .dirName => stringFree t.info.multi.dirName
  | .path file => listFree (t.info.multi.filesList[file]?.bind MultiFiles.path)
  | .pathUtf8 file => listFree (t.info.multi.filesList[file]?.bind MultiFiles.pathUtf8)

def nodes (t : Torrent) : List Nat := t.info.multi.filesList.map MultiFiles.node ++ [t.node]

def fileCount (t : Torrent) : Nat := t.info.multi.filesList.length

/-- On the way from `t` to `t'` values have been moved to the given members, in some order, and
`files` files added. The dictionary owned the blocks `before` and still owns `after`. -/
def Carried (members : List Slot) (files : Nat) (st st' : St) (t t' : Torrent)
    (before after : List Nat) : Prop :=
  fileCount t' = fileCount t + files ∧
    ∃ moves : List (Slot × List Nat), (moves.map Prod.fst).Perm members ∧
      (∀ move ∈ moves, move.2 ≠ []) ∧ held t' = store (held t) moves ∧
      Balanced st.heap st'.heap (before ++ nodes t) (after ++ nodes t' ++ moves.flatMap Prod.snd)

theorem carried_same {st : St} {t t' : Torrent} {blocks : List Nat} (same : held t' = held t)
    (counted : nodes t' = nodes t) (files : fileCount t' = fileCount t) :
    Carried [] 0 st st t t' blocks blocks := by
  refine ⟨files, [], .refl _, by simp, same, ?_⟩
  rw [counted, List.flatMap_nil, List.append_nil]
  exact .refl _ _

theorem Carried.frame {members : List Slot} {files : Nat} {st st' : St} {t t' : Torrent}
    {before after : List Nat} (carried : Carried members files st st' t t' before after)
    (others : List Nat) :
    Carried members files st st' t t' (others ++ before) (others ++ after) := by
  obtain ⟨count, moves, fsts, some, same, balanced⟩ := carried
  have framed := balanced.frame others
  simp only [← List.append_assoc] at framed
  exact ⟨count, moves, fsts, some, same, framed⟩

theorem Carried.trans {members₁ members₂ : List Slot} {files₁ files₂ : Nat} {st₁ st₂ st₃ : St}
    {t₁ t₂ t₃ : Torrent} {blocks₁ blocks₂ blocks₃ : List Nat}
    (first : Carried members₁ files₁ st₁ st₂ t₁ t₂ blocks₁ blocks₂)
    (second : Carried members₂ files₂ st₂ st₃ t₂ t₃ blocks₂ blocks₃) :
    Carried (members₁ ++ members₂) (files₁ + files₂) st₁ st₃ t₁ t₃ blocks₁ blocks₃ := by
  obtain ⟨count₁, moves₁, fsts₁, some₁, same₁, balanced₁⟩ := first
  obtain ⟨count₂, moves₂, fsts₂, some₂, same₂, balanced₂⟩ := second
  refine ⟨by omega, moves₁ ++ moves₂, ?_, ?_, ?_, ?_⟩
  · rw [List.map_append]
    exact fsts₁.append fsts₂
  · intro move member
    rcases List.mem_append.mp member with early | late
    · exact some₁ move early
    · exact some₂ move late
  · rw [store_append, ← same₁, same₂]
  · have later := balanced₂.frame (moves₁.flatMap Prod.snd)
    apply (balanced₁.congr (.refl _) List.perm_append_comm).trans
    apply later.congr (.refl _)
    rw [List.perm_iff_count]
    intro block
    simp only [List.flatMap_append, List.count_append]
    omega

theorem Carried.congr {members members' : List Slot} {files : Nat} {st st' : St} {t t' : Torrent}
    {before after blocks blocks' : List Nat}
    (carried : Carried members files st st' t t' before after) (order : members.Perm members')
    (first : before.Perm blocks) (last : after.Perm blocks') :
    Carried members' files st st' t t' blocks blocks' := by
  obtain ⟨count, moves, fsts, some, same, balanced⟩ := carried
  refine ⟨count, moves, fsts.trans order, some, same, ?_⟩
  apply balanced.congr (first.append_right _)
  exact (last.append_right _).append_right _

theorem free_ne_nil (v : BValue) : v.free ≠ [] := by
  cases v <;> simp [BValue.free, bStringFree, bIntFree]

theorem carried_move {st : St} {t t' : Torrent} {slot : Slot} {v : BValue} (entry : Nat)
    (stored : held t' = Function.update (held t) slot v.free) (counted : nodes t' = nodes t)
    (files : fileCount t' = fileCount t) :
    Carried [slot] 0 st st t t' (v.free ++ [entry]) [entry] := by
  refine ⟨files, [(slot, v.free)], .refl _, ?_, stored, ?_⟩
  · simp [free_ne_nil]
  · rw [counted]
    apply (Balanced.refl st.heap _).congr (.refl _)
    rw [List.perm_iff_count]
    intro block
    simp only [List.flatMap_cons, List.flatMap_nil, List.append_nil, List.count_append]
    omega

section Loop

variable {T E C : Type} (embed : T → Torrent) (content : E → List C) (free : E → List Nat)
  (members : Nat → List C → List Slot) (files : List C → Nat)

theorem forEach_carried (none : ∀ file, members file [] = []) (noFiles : files [] = 0)
    (append : ∀ file front back, (members file (front ++ back)).Perm
      (members file front ++ members (file + files front) back))
    (appendFiles : ∀ front back, files (front ++ back) = files front + files back)
    (step : St → T → E → Step T E)
    (round : ∀ st x e, (step st x e).status = 0 ∧
      Carried (members (fileCount (embed x)) (content e)) (files (content e)) st (step st x e).st
        (embed x) (embed (step st x e).target) (free e) (free (step st x e).entry))
    (st : St) (x : T) (es : List E) :
    (forEach step st x es).status = 0 ∧
      Carried (members (fileCount (embed x)) (es.flatMap content)) (files (es.flatMap content)) st
        (forEach step st x es).st (embed x) (embed (forEach step st x es).target)
        (es.flatMap free) ((forEach step st x es).entry.flatMap free) := by
  induction es generalizing st x with
  | nil =>
    simp only [forEach, List.flatMap_nil, none, noFiles, true_and]
    exact carried_same rfl rfl rfl
  | cons e es ih =>
    obtain ⟨success, first⟩ := round st x e
    obtain ⟨successes, rest⟩ := ih (step st x e).st (step st x e).target
    simp only [forEach, success, if_true, successes, true_and, List.flatMap_cons, appendFiles]
    have count := first.1
    rw [count] at rest
    have here := (first.frame (es.flatMap free)).congr (.refl _) List.perm_append_comm
      List.perm_append_comm
    apply (here.trans (rest.frame _)).congr (append _ _ _).symm (.refl _) (.refl _)

end Loop

end BTServer.Metainfo
