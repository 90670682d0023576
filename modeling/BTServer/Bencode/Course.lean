import BTServer.Bencode.Extent

set_option autoImplicit false

namespace BTServer.Bencode

open CString Outcome

def Reaches (env : Env) (s₀ : Scan) (place : Place) (s : Scan) (t : Bytes) : Prop :=
  ∃ rest, env.buf = 100 :: rest ∧ Comes env place s t .entries s₀ rest

theorem comes_suffix {env : Env} {place place₀ : Place} {s s₀ : Scan} {t t₀ : Bytes}
    (comes : Comes env place s t place₀ s₀ t₀) : t <:+ t₀ := by
  induction comes with
  | arrived => exact List.suffix_rfl
  | str node tag inside ih => exact ih
  | list node inside ih => exact ih.trans (List.suffix_cons _ _)
  | dict node inside ih => exact ih.trans (List.suffix_cons _ _)
  | here start inside ih => exact ih
  | later start first rest ih => exact ih.trans (List.suffix_append _ _)
  | retry start node rest ih => exact ih
  | key start node inside ih => exact ih
  | value start node read inside ih => exact ih.trans (List.suffix_append _ _)
  | entry start node read first rest ih => exact ih.trans (List.suffix_append _ _)
  | drop start node read failed rest ih => exact ih.trans (List.suffix_append _ _)

theorem Reaches.position {env : Env} {place : Place} {s s₀ : Scan} {t : Bytes}
    (reaches : Reaches env s₀ place s t) : ∃ p, env.At p t := by
  obtain ⟨rest, whole, comes⟩ := reaches
  obtain ⟨front, rfl⟩ := comes_suffix comes
  have here : env.At 0 ((100 :: front) ++ t) := ⟨Nat.zero_le _, whole⟩
  exact ⟨_, here.advance⟩

theorem text_unique {env : Env} {s s' s'' : Scan} {p : Nat} {text data text' data' rest rest' : Bytes}
    (read : TextRead env s text data s') (read' : TextRead env s text' data' s'')
    (here : env.At p (text ++ 58 :: data ++ rest))
    (same : text ++ 58 :: data ++ rest = text' ++ 58 :: data' ++ rest') :
    text = text' ∧ data = data' ∧ rest = rest' ∧ s' = s'' := by
  obtain ⟨target, st, parsed, stored, -, after⟩ :=
    bStringParse_reads read ⟨s, [], []⟩ p rest (bStringAlloc 0) rfl here
  rw [same] at here
  obtain ⟨target', st', parsed', stored', -, after'⟩ :=
    bStringParse_reads read' ⟨s, [], []⟩ p rest' (bStringAlloc 0) rfl here
  rw [parsed] at parsed'
  simp only [Outcome.done.injEq, Prod.mk.injEq, Option.some.injEq] at parsed'
  obtain ⟨⟨next, rfl⟩, rfl⟩ := parsed'
  obtain ⟨front, rfl⟩ := List.append_inj same (by omega)
  obtain rfl : data = data' := stored.symm.trans stored'
  refine ⟨List.append_cancel_right front, rfl, rfl, after.symm.trans after'⟩

theorem value_unique {env : Env} {s s' s'' : Scan} {p : Nat} {w w' rest rest' : Bytes}
    {v v' : Value} (reads : Reads env .any s w (.value v) s')
    (reads' : Reads env .any s w' (.value v') s'') (here : env.At p (w ++ rest))
    (same : w ++ rest = w' ++ rest') : w = w' ∧ v = v' ∧ rest = rest' ∧ s' = s'' := by
  obtain ⟨enough, accepts⟩ := reads_accepts reads
  obtain ⟨enough', accepts'⟩ := reads_accepts reads'
  obtain ⟨x, st, parsed, erased, after⟩ := accepts (max enough enough') (Nat.le_max_left _ _)
    ⟨s, [], []⟩ p rest [] id rfl here
  rw [same] at here
  obtain ⟨x', st', parsed', erased', after'⟩ := accepts' (max enough enough')
    (Nat.le_max_right _ _) ⟨s, [], []⟩ p rest' [] id rfl here
  rw [← same, parsed] at parsed'
  simp only [Outcome.done.injEq, Element.parsed.injEq] at parsed'
  obtain ⟨⟨next, rfl⟩, rfl⟩ := parsed'
  obtain ⟨rfl, rfl⟩ := List.append_inj same (by omega)
  exact ⟨rfl, erased.symm.trans erased', rfl, after.symm.trans after'⟩

structure EntryAt (env : Env) (rules : Rules) (s : Scan) (t text key w after : Bytes) (v : Value)
    (s₁ s₂ : Scan) : Prop where
  split : t = text ++ 58 :: key ++ w ++ after
  start : NoEnd text
  read : TextRead env (s.malloc env) text key s₁
  ok : rules.text text key
  plain : rules.key key
  first : Reads env rules s₁ w (.value v) s₂

theorem EntryAt.unique {env : Env} {s : Scan} {p : Nat} {t text key w after text' key' w' after' :
    Bytes} {v v' : Value} {s₁ s₂ s₁' s₂' : Scan} (here : env.At p t)
    (entry : EntryAt env .any s t text key w after v s₁ s₂)
    (entry' : EntryAt env .any s t text' key' w' after' v' s₁' s₂') :
    text = text' ∧ key = key' ∧ w = w' ∧ after = after' ∧ v = v' ∧ s₁ = s₁' ∧ s₂ = s₂' := by
  obtain ⟨rfl, -, read, -, -, first⟩ := entry
  obtain ⟨same, -, read', -, -, first'⟩ := entry'
  rw [List.append_assoc] at here same
  rw [List.append_assoc _ w' after'] at same
  obtain ⟨rfl, rfl, same, rfl⟩ := text_unique read read' here same
  obtain ⟨rfl, rfl, rfl, rfl⟩ := value_unique first first' here.advance same
  exact ⟨rfl, rfl, rfl, rfl, rfl, rfl, rfl⟩

theorem entries_cases {env : Env} (mallocs : Allocates env) {rules : Rules} {s s' : Scan}
    {w : Bytes} {es : List (Bytes × Value)} (reads : Reads env rules s w (.entries es) s') :
    (w = [] ∧ es = [] ∧ s' = s) ∨ ∃ text key v ws x es' s₁ s₂, w = text ++ 58 :: key ++ v ++ ws ∧
      EntryAt env rules s w text key v ws x s₁ s₂ ∧ es = (cutKey key, x) :: es' ∧
      Reads env rules (s₂.malloc env) ws (.entries es') s' := by
  generalize content : Content.entries es = c at reads
  cases reads with
  | str => cases content
  | int => cases content
  | list => cases content
  | dict => cases content
  | nil => cases content
  | cons => cases content
  | retry => cases content
  | drop start node read failed => exact absurd ⟨_, failed⟩ mallocs.not_failing
  | done =>
    cases content
    exact .inl ⟨rfl, rfl, rfl⟩
  | entry start node read ok plain first rest =>
    rw [if_pos (mallocs _)] at content
    cases content
    exact .inr ⟨_, _, _, _, _, _, _, _, rfl, ⟨rfl, start, read, ok, plain, first⟩, rfl, rest⟩

theorem items_cases {env : Env} (mallocs : Allocates env) {rules : Rules} {s s' : Scan} {w : Bytes}
    {vs : List Value} (reads : Reads env rules s w (.items vs) s') :
    w = [] ∨ ∃ u us v vs' s₁, w = u ++ us ∧ Reads env rules s u (.value v) s₁ ∧
      Reads env rules (s₁.malloc env) us (.items vs') s' := by
  generalize content : Content.items vs = c at reads
  cases reads with
  | str => cases content
  | int => cases content
  | list => cases content
  | dict => cases content
  | nil => exact .inl rfl
  | cons start first rest => exact .inr ⟨_, _, _, _, _, rfl, first, rest⟩
  | retry start more node => exact absurd ⟨_, node⟩ mallocs.not_failing
  | done => cases content
  | entry => cases content
  | drop => cases content

section Tags

variable {env : Env} {rules : Rules} {s s' : Scan} {w rest t : Bytes} {v : Value}

theorem value_string (reads : Reads env rules s w (.value v) s') (tag : NoTag (w ++ rest)) :
    ∃ text data, w = text ++ 58 :: data ∧ rules.text text data ∧
      TextRead env (s.malloc env) text data s' := by
  cases reads with
  | str node _ read ok => exact ⟨_, _, rfl, ok, read⟩
  | int => exact absurd rfl (tag 105 rfl).2.1
  | list => exact absurd rfl (tag 108 rfl).1
  | dict => exact absurd rfl (tag 100 rfl).2.2

theorem noTag_text {text data rest : Bytes} (tag : NoTag text) : NoTag (text ++ 58 :: data ++ rest) := by
  cases text with
  | nil => simp [NoTag]
  | cons c text => exact fun d head => tag d head

theorem value_list (reads : Reads env rules s w (.value v) s') (same : w ++ rest = 108 :: t) :
    ∃ u vs, t = u ++ 101 :: rest ∧ Reads env rules (s.malloc env) u (.items vs) s' := by
  cases reads with
  | str node tag read ok => exact absurd rfl (noTag_text tag 108 (by rw [same]; rfl)).1
  | int => simp at same
  | list node inside => exact ⟨_, _, by simpa using same.symm, inside⟩
  | dict => simp at same

theorem value_dict (reads : Reads env rules s w (.value v) s') (same : w ++ rest = 100 :: t) :
    ∃ u es, t = u ++ 101 :: rest ∧ Reads env rules (s.malloc env) u (.entries es) s' := by
  cases reads with
  | str node tag read ok => exact absurd rfl (noTag_text tag 100 (by rw [same]; rfl)).2.2
  | int => simp at same
  | list => simp at same
  | dict node inside => exact ⟨_, _, by simpa using same.symm, inside⟩

end Tags

theorem EntryAt.any {env : Env} (mallocs : Allocates env) {rules : Rules} {s : Scan}
    {t text key w after : Bytes} {v : Value} {s₁ s₂ : Scan}
    (entry : EntryAt env rules s t text key w after v s₁ s₂) :
    EntryAt env .any s t text key w after v s₁ s₂ :=
  ⟨entry.split, entry.start, entry.read, trivial, trivial, entry.first.any mallocs⟩

-- What stands at a place is read to its end by the rules.
def ReadHere (env : Env) (rules : Rules) : Place → Scan → Bytes → Prop
  | .text, s, t => ∃ text data rest s', t = text ++ 58 :: data ++ rest ∧ rules.text text data ∧
      TextRead env s text data s'
  | .value, s, t => ∃ w v rest s', t = w ++ rest ∧ Reads env rules s w (.value v) s'
  | .items, s, t => ∃ w vs rest s', t = w ++ 101 :: rest ∧ Reads env rules s w (.items vs) s'
  | .entries, s, t => ∃ w es rest s', t = w ++ 101 :: rest ∧ Reads env rules s w (.entries es) s'

theorem entries_here {env : Env} (mallocs : Allocates env) {rules : Rules} {s : Scan} {t : Bytes}
    (start : NoEnd t) (read : ReadHere env rules .entries s t) :
    ∃ text key w after v s₁ s₂, EntryAt env rules s t text key w after v s₁ s₂ ∧
      ReadHere env rules .entries (s₂.malloc env) after := by
  obtain ⟨w, es, rest, s', rfl, reads⟩ := read
  rcases entries_cases mallocs reads with
    ⟨rfl, -, -⟩ | ⟨text, key, v, ws, x, es', s₁, s₂, rfl, entry, -, later⟩
  next => exact absurd rfl start
  next =>
    refine ⟨text, key, v, ws ++ 101 :: rest, x, s₁, s₂, ?_, ws, es', rest, s', rfl, later⟩
    exact { entry with split := by simp }

theorem items_here {env : Env} (mallocs : Allocates env) {rules : Rules} {s : Scan} {t : Bytes}
    (start : NoEnd t) (read : ReadHere env rules .items s t) :
    ∃ w after v s₁, t = w ++ after ∧ Reads env rules s w (.value v) s₁ ∧
      ReadHere env rules .items (s₁.malloc env) after := by
  obtain ⟨w, vs, rest, s', rfl, reads⟩ := read
  rcases items_cases mallocs reads with rfl | ⟨u, us, v, vs', s₁, rfl, first, later⟩
  next => exact absurd rfl start
  next =>
    refine ⟨u, us ++ 101 :: rest, v, s₁, by simp, first, us, vs', rest, s', rfl, later⟩

theorem Comes.readHere {env : Env} (mallocs : Allocates env) {rules : Rules} {place place₀ : Place}
    {s s₀ : Scan} {t t₀ : Bytes} {p : Nat} (comes : Comes env place s t place₀ s₀ t₀)
    (here : env.At p t₀) (read : ReadHere env rules place₀ s₀ t₀) :
    ReadHere env rules place s t := by
  induction comes generalizing p with
  | arrived => exact read
  | str node tag inside ih =>
    obtain ⟨w, v, rest, s', rfl, reads⟩ := read
    obtain ⟨text, data, rfl, ok, read⟩ := value_string reads tag
    exact ih here ⟨text, data, rest, s', rfl, ok, read⟩
  | list node inside ih =>
    obtain ⟨w, v, rest, s', same, reads⟩ := read
    obtain ⟨u, vs, rfl, items⟩ := value_list reads same.symm
    exact ih here.next ⟨u, vs, rest, s', rfl, items⟩
  | dict node inside ih =>
    obtain ⟨w, v, rest, s', same, reads⟩ := read
    obtain ⟨u, es, rfl, entries⟩ := value_dict reads same.symm
    exact ih here.next ⟨u, es, rest, s', rfl, entries⟩
  | here start inside ih =>
    obtain ⟨w, after, v, s₁, rfl, first, -⟩ := items_here mallocs start read
    exact ih here ⟨w, v, after, s₁, rfl, first⟩
  | later start first rest ih =>
    obtain ⟨w, after, v, s₁, same, first', later⟩ :=
      items_here mallocs (noEnd_extend (reads_ne_nil first) start _) read
    obtain ⟨rfl, -, rfl, rfl⟩ := value_unique first (first'.any mallocs) here same
    exact ih here.advance later
  | retry start node rest ih => exact absurd ⟨_, node⟩ mallocs.not_failing
  | key start node inside ih =>
    obtain ⟨text, key, w, after, v, s₁, s₂, entry, -⟩ := entries_here mallocs start read
    exact ih here ⟨text, key, w ++ after, s₁, by rw [entry.split]; simp, entry.ok, entry.read⟩
  | value start node read' inside ih =>
    obtain ⟨text, key, w, after, v, s₁, s₂, entry, -⟩ :=
      entries_here mallocs (by simpa using noEnd_colon start _) read
    have same := entry.split
    rw [List.append_assoc _ w] at same
    obtain ⟨rfl, rfl, rfl, rfl⟩ := text_unique read' entry.read here same
    exact ih here.advance ⟨w, v, after, s₂, rfl, entry.first⟩
  | entry start node read' first rest ih =>
    obtain ⟨text, key, w, after, v, s₁, s₂, entry, later⟩ :=
      entries_here mallocs (by simpa using noEnd_colon start _) read
    obtain ⟨rfl, rfl, rfl, rfl, rfl, rfl, rfl⟩ := EntryAt.unique here
      ⟨rfl, start, read', trivial, trivial, first⟩ (entry.any mallocs)
    exact ih here.advance later
  | drop start node read' failed rest ih => exact absurd ⟨_, failed⟩ mallocs.not_failing

def NoEntry (env : Env) (s : Scan) (t : Bytes) : Prop :=
  ∀ text key w after v s₁ s₂, ¬ EntryAt env .any s t text key w after v s₁ s₂

theorem noEnd_split {text rest t : Bytes} (start : NoEnd text) :
    101 :: t ≠ text ++ 58 :: rest := by
  cases text with
  | nil => simp
  | cons c text =>
    intro split
    simp only [List.cons_append, List.cons.injEq] at split
    exact start (by rw [← split.1]; rfl)

theorem noEntry_end (env : Env) (s : Scan) (rest : Bytes) : NoEntry env s (101 :: rest) := by
  intro text key w after v s₁ s₂ entry
  exact noEnd_split entry.start (by simpa using entry.split)

structure Completes (env : Env) (rules : Rules) (s : Scan) (t w rest : Bytes)
    (es : List (Bytes × Value)) (s' : Scan) : Prop where
  split : t = w ++ rest
  reads : Reads env rules s w (.entries es) s'
  last : NoEntry env s' rest

-- Any entries read from the start are among the completed ones and keep to their rules.
theorem Completes.after {env : Env} (mallocs : Allocates env) {rules : Rules} {s s' s₁ : Scan}
    {p : Nat} {t w rest w₁ rest₁ : Bytes} {es es₁ : List (Bytes × Value)} (here : env.At p t)
    (completes : Completes env rules s t w rest es s') (split : t = w₁ ++ rest₁)
    (reads : Reads env .any s w₁ (.entries es₁) s₁) :
    Reads env rules s w₁ (.entries es₁) s₁ ∧
      ∃ x es', w = w₁ ++ x ∧ es = es₁ ++ es' ∧ Reads env rules s₁ x (.entries es') s' := by
  generalize size : w₁.length = n
  induction n using Nat.strongRecOn generalizing s p t w w₁ es es₁ with
  | ind n ih =>
    rcases entries_cases mallocs reads with
      ⟨rfl, rfl, rfl⟩ | ⟨text, key, v, ws, x, es₂, r₁, r₂, rfl, entry, rfl, later⟩
    next => exact ⟨.done, w, es, rfl, rfl, completes.reads⟩
    next =>
      have whole : EntryAt env .any s t text key v (ws ++ rest₁) x r₁ r₂ :=
        { entry with split := by rw [split]; simp }
      rcases entries_cases mallocs completes.reads with
        ⟨rfl, rfl, rfl⟩ | ⟨text', key', v', ws', x', es', r₁', r₂', rfl, entry', rfl, later'⟩
      next =>
        have none := completes.last text key v (ws ++ rest₁) x r₁ r₂
        rw [show rest = t from completes.split.symm] at none
        exact absurd whole none
      next =>
        have whole' : EntryAt env rules s t text' key' v' (ws' ++ rest) x' r₁' r₂' :=
          { entry' with split := by rw [completes.split]; simp }
        obtain ⟨rfl, rfl, rfl, same, rfl, rfl, rfl⟩ := whole.unique here (whole'.any mallocs)
        rw [whole.split] at here
        have rest' : Completes env rules (r₂.malloc env) (ws ++ rest₁) ws' rest es' s' :=
          ⟨same, later', completes.last⟩
        obtain ⟨first, y, es₃, rfl, rfl, last⟩ := ih ws.length
          (by rw [← size]; simp only [List.length_append, List.length_cons]; omega)
          here.advance rest' rfl later rfl
        refine ⟨?_, y, es₃, by simp, by simp, last⟩
        have reads := Reads.entry entry'.start (mallocs _) entry'.read entry'.ok entry'.plain
          entry'.first first
        rwa [if_pos (mallocs _)] at reads

theorem Completes.unique {env : Env} (mallocs : Allocates env) {s s' s'' : Scan} {p : Nat}
    {t w rest w' rest' : Bytes} {es es' : List (Bytes × Value)} (here : env.At p t)
    (completes : Completes env .any s t w rest es s')
    (completes' : Completes env .any s t w' rest' es' s'') : w = w' ∧ rest = rest' ∧ es = es' := by
  obtain ⟨-, x, es₁, longer, more, -⟩ :=
    completes.after mallocs here completes'.split completes'.reads
  obtain ⟨-, y, es₂, longer', more', -⟩ :=
    completes'.after mallocs here completes.split completes.reads
  have nothing : x = [] := by
    have length := congrArg List.length longer
    have length' := congrArg List.length longer'
    simp only [List.length_append] at length length'
    exact List.eq_nil_of_length_eq_zero (by omega)
  have none : es₁ = [] := by
    have length := congrArg List.length more
    have length' := congrArg List.length more'
    simp only [List.length_append] at length length'
    exact List.eq_nil_of_length_eq_zero (by omega)
  have same : w = w' := by rw [longer, nothing, List.append_nil]
  refine ⟨same, ?_, by rw [more, none, List.append_nil]⟩
  have split := completes.split.symm.trans completes'.split
  rw [same] at split
  exact List.append_cancel_left split

theorem parseElement_rejected {env : Env} {fuel : Nat} {st st' : St} {p : Nat} {t w rest : Bytes}
    {v : Value} {s' : Scan} (here : env.At p t) {release : List Nat} {complain : St → St}
    (rejected : parseElement env (bListParse env fuel) (bDictParse env fuel) release complain st p
      (t.headD 0) = .done .rejected st') (split : t = w ++ rest) :
    ¬ Reads env .any st.toScan w (.value v) s' := by
  intro reads
  obtain ⟨enough, accepts⟩ := reads_accepts reads
  subst split
  obtain ⟨x, st₁, parsed, -, -⟩ := accepts (fuel + enough) (by omega) st p rest release complain rfl
    here
  have more := parse_extended env fuel enough
  rcases parseElement_extends env more.list more.dict release complain st p ((w ++ rest).headD 0)
    with ⟨st₂, stopped⟩ | same
  next =>
    rw [rejected] at stopped
    contradiction
  next =>
    rw [parsed, rejected] at same
    cases same

/-- How a dictionary's loop ends: behind the closing `e`, or with a null pointer where no further
entry can be completed. -/
structure LoopEnds (env : Env) (s : Scan) (p : Nat) (t : Bytes) (before : List (Bytes × Value))
    (next : Option Nat) (after : List (Bytes × Value)) (w rest : Bytes) (es : List (Bytes × Value))
    (s' : Scan) : Prop where
  completes : Completes env .any s t w rest es s'
  next : next = if rest.head? = some 101 then some (p + (w.length + 1)) else none
  contents : after = before ++ es

def loopEnds (env : Env) (s : Scan) (p : Nat) (t : Bytes) (before : List (Bytes × Value)) :
    Post St (Option Nat × BDict) where
  done result _ := ∃ w rest es s',
    LoopEnds env s p t before result.1 (eraseEntries result.2.entries) w rest es s'
  fault := True
  crash := True
  timeout := True

theorem loopEnds_none {env : Env} {st st' : St} {p : Nat} {t : Bytes} {ret : BDict}
    (start : NoEnd t) (last : NoEntry env st.toScan t) :
    (Outcome.done (none, ret) st' : Outcome St (Option Nat × BDict)).Sat
      (loopEnds env st.toScan p t (eraseEntries ret.entries)) :=
  ⟨[], t, [], st.toScan, ⟨rfl, .done, last⟩, by simp [show t.head? ≠ some 101 from start], by simp⟩

theorem LoopEnds.cons {env : Env} (mallocs : Allocates env) {s s₁ s₂ s' : Scan} {p : Nat}
    {text key w t ws rest : Bytes} {v : Value} {before after es : List (Bytes × Value)}
    {next : Option Nat} (start : NoEnd text) (read : TextRead env (s.malloc env) text key s₁)
    (first : Reads env .any s₁ w (.value v) s₂)
    (ends : LoopEnds env (s₂.malloc env) (p + (text ++ 58 :: key).length + w.length) t
      (before ++ [(cutKey key, v)]) next after ws rest es s') :
    LoopEnds env s p (text ++ 58 :: key ++ (w ++ t)) before next after
      (text ++ 58 :: key ++ w ++ ws) rest ((cutKey key, v) :: es) s' := by
  obtain ⟨⟨rfl, reads, last⟩, rfl, rfl⟩ := ends
  have whole := Reads.entry start (mallocs _) read trivial trivial first reads
  rw [if_pos (mallocs _)] at whole
  refine ⟨⟨by simp, whole, last⟩, ?_, by simp⟩
  simp only [List.length_append, List.length_cons]
  split
  next =>
    congr 1
    omega
  next => rfl

theorem bDictLoop_entryEnds {env : Env} (mallocs : Allocates env) (fuel : Nat)
    (ih : ∀ st p t ret, env.At p t → (bDictLoop env fuel st p ret).Sat
      (loopEnds env st.toScan p t (eraseEntries ret.entries)))
    {st : St} {s₁ : Scan} {p : Nat} {text data rest : Bytes} (ret : BDict) (start : NoEnd text)
    (read : TextRead env (st.malloc env).toScan text data s₁)
    (here : env.At p (text ++ 58 :: data ++ rest)) :
    (bDictLoop env (fuel + 1) st p ret).Sat
      (loopEnds env st.toScan p (text ++ 58 :: data ++ rest) (eraseEntries ret.entries)) := by
  obtain ⟨key, st₁, rfl, stored, there, round⟩ :=
    bDictLoop_value start (mallocs _) read fuel st p rest ret rfl here
  have sound := parse_sound env fuel
  have element := @parseElement_sat env fuel st₁ _ _ _ sound.list sound.dict (bStringFree key)
    (fun st => st.print .error "b_dict_parse" 657 (ascii "Error list entry type\n")) rest there
  rw [round]
  cases parsed : parseElement env (bListParse env fuel) (bDictParse env fuel) (bStringFree key)
      (fun st => st.print .error "b_dict_parse" 657 (ascii "Error list entry type\n")) st₁
      (p + (text ++ 58 :: data).length) (rest.headD 0) with
  | fault st' => trivial
  | crash st' => trivial
  | timeout st' => trivial
  | done result st₂ =>
    rw [parsed] at element
    cases result with
    | skipped => exact absurd ⟨_, element.1⟩ mallocs.not_failing
    | rejected =>
      have front : NoEnd (text ++ 58 :: data ++ rest) := by simpa using noEnd_colon start _
      refine loopEnds_none front fun text' data' w after v s₁ s₂ entry => ?_
      obtain ⟨split, -, read', -, -, first⟩ := entry
      rw [List.append_assoc _ w after] at split
      obtain ⟨rfl, rfl, rfl, same⟩ := text_unique read read' here split
      rw [← same] at first
      exact parseElement_rejected there parsed rfl first
    | parsed q v =>
      rw [done_andThen]
      rcases element with ⟨w, after, rfl, some, rfl, first⟩ | ⟨past, -⟩
      next =>
        refine Sat.mono (ih ((bDictAdd env st₂ v key ret).2.free (bStringFree key)) _ after
          (bDictAdd env st₂ v key ret).1 there.advance) ?_ id id id
        rintro result st' ⟨ws, left, es, s', ends⟩
        have contents := bDictAdd_erase env st₂ v key ret []
        rw [List.append_nil, if_pos (mallocs _), stored] at contents
        change LoopEnds env (bDictAdd env st₂ v key ret).2.toScan _ _ _ _ _ _ _ _ _ at ends
        rw [bDictAdd_scan, contents] at ends
        exact ⟨_, left, _, s', LoopEnds.cons mallocs start read first ends⟩
      next =>
        exact Sat.mono (bDictLoop_past env fuel _ q _ past) (fun _ _ => False.elim) id
          (fun _ => trivial) (fun _ => trivial)

theorem bDictLoop_loopEnds {env : Env} (mallocs : Allocates env) (fuel : Nat) (st : St) (p : Nat)
    (t : Bytes) (ret : BDict) (here : env.At p t) :
    (bDictLoop env fuel st p ret).Sat
      (loopEnds env st.toScan p t (eraseEntries ret.entries)) := by
  induction fuel generalizing st p t ret with
  | zero =>
    rw [bDictLoop]
    trivial
  | succ fuel ih =>
    have key := bStringParse_sat env (st.malloc env) p t (bStringAlloc st.mallocs) here
    have node : env.alloc st.mallocs = true := mallocs _
    by_cases last : t.headD 0 = 101
    next =>
      obtain ⟨rest, rfl⟩ := headD_cons last (by decide)
      simp only [bDictLoop, here.load, last, if_true]
      exact ⟨[], 101 :: rest, [], st.toScan, ⟨rfl, .done, noEntry_end _ _ _⟩, by simp, by simp⟩
    next =>
      have start : NoEnd t := noEnd_of_headD last
      cases parsed : bStringParse env (st.malloc env) p (bStringAlloc st.mallocs) with
      | fault st' =>
        simp only [bDictLoop, here.load, last, node, parsed, if_false, Bool.true_eq_false]
        trivial
      | crash st' =>
        simp only [bDictLoop, here.load, last, node, parsed, if_false, Bool.true_eq_false]
        trivial
      | timeout st' =>
        simp only [bDictLoop, here.load, last, node, parsed, if_false, Bool.true_eq_false]
        trivial
      | done result st₁ =>
        obtain ⟨next, target⟩ := result
        rw [parsed] at key
        cases next with
        | none =>
          simp only [bDictLoop, here.load, last, node, parsed, if_false, Bool.true_eq_false]
          refine loopEnds_none start fun text data w after v s₁ s₂ entry => ?_
          obtain ⟨rfl, -, read, -, -, -⟩ := entry
          rw [List.append_assoc] at here
          obtain ⟨target, st₂, parsed', -⟩ :=
            bStringParse_reads read (st.malloc env) p _ (bStringAlloc st.mallocs) rfl here
          rw [parsed] at parsed'
          cases parsed'
        | some q =>
          rcases key.1 q rfl with ⟨text, data, rest, found⟩ | ⟨past, -⟩
          next =>
            obtain ⟨rfl, -, read, -, -⟩ := found
            exact bDictLoop_entryEnds mallocs fuel ih ret (noEnd_text (by simpa using start)) read
              here
          next =>
            simp only [bDictLoop, here.load, last, node, parsed, if_false, Bool.true_eq_false,
              done_andThen, Env.load_past past]
            trivial

end BTServer.Bencode
