import Suprime.JsonPrefix
import Suprime.Persistence
import Suprime.StoreMerge

namespace Suprime
set_option autoImplicit true

theorem Dict.items_ofList [DecidableEq κ] (l : List (κ × α)) :
    (Dict.ofList l).items = ofPairs l := by
  induction l using List.reverseRecOn with
  | nil => rfl
  | append_singleton l p ih =>
    rw [Dict.ofList_concat, ofPairs_concat, ← ih]
    rfl

variable {F : Type} [LinearOrder F] [FiniteFloat F]

/-- An entry after it went through JSON. -/
def viaJsonEntry (e : JsonEntry F) : JsonEntry F :=
  ⟨viaJson e.value, ⟨e.version.ts, viaJsonStr e.version.origin⟩, e.deleted⟩

def viaJsonPair (p : PyStr × JsonEntry F) : PyStr × JsonEntry F :=
  (viaJsonStr p.1, viaJsonEntry p.2)

def PlainPair (p : PyStr × JsonEntry F) : Prop :=
  plain p.1 = true ∧ plain p.2.version.origin = true

instance (p : PyStr × JsonEntry F) : Decidable (PlainPair p) := instDecidableAnd

theorem viaJsonPair_fst {p : PyStr × JsonEntry F} (h : PlainPair p) :
    (viaJsonPair p).1 = p.1 :=
  (viaJsonStr_eq_self_iff _).2 h.1

theorem viaJsonPair_version {p : PyStr × JsonEntry F} (h : PlainPair p) :
    (viaJsonPair p).2.version = p.2.version := by
  simp only [viaJsonPair, viaJsonEntry, (viaJsonStr_eq_self_iff _).2 h.2]

theorem plainPair_viaJsonPair {p : PyStr × JsonEntry F} (h : PlainPair p) :
    PlainPair (viaJsonPair p) := by
  refine ⟨?_, ?_⟩
  · rw [viaJsonPair_fst h]
    exact h.1
  · rw [viaJsonPair_version h]
    exact h.2

theorem EntryData.ofValue_toValue (d : EntryData F PyStr (PyValue F)) :
    EntryData.ofValue d.toValue = some d := by
  obtain ⟨value, ts, origin, deleted⟩ := d
  cases value with
  | none =>
    cases deleted with
    | none => rfl
    | some b => rfl
  | some v =>
    cases deleted with
    | none => rfl
    | some b => rfl

theorem viaJson_toValue (e : JsonEntry F) :
    viaJson e.toDict.toValue = (viaJsonEntry e).toDict.toValue := rfl

theorem readRecord_viaJson (p : PyStr × JsonEntry F) :
    readRecord (viaJson (.dict [(.str keyField, .str p.1),
      (.str entryField, p.2.toDict.toValue)])) = some (viaJsonPair p) := rfl

theorem loads_record (p : PyStr × JsonEntry F) :
    ∃ v : PyValue F, loads (record p) = some v ∧ readRecord v = some (viaJsonPair p) :=
  ⟨_, loads_dumps _, readRecord_viaJson p⟩

theorem viaJsonItems_digest (l : List (PyStr × JsonEntry F)) :
    viaJsonItems (l.map (fun p => (.str p.1, p.2.toDict.toValue))) =
      l.map (fun p => (.str (viaJsonPair p).1, (viaJsonPair p).2.toDict.toValue)) := by
  induction l with
  | nil => rfl
  | cons p l ih =>
    rw [List.map_cons, viaJsonItems, ih, viaJson_toValue]
    rfl

theorem mapM_readItem (l : List (PyStr × JsonEntry F)) :
    (l.map (fun p => (PyKey.str p.1, p.2.toDict.toValue))).mapM readItem =
      some (l.map (fun p => (p.1, p.2.toDict))) := by
  induction l with
  | nil => rfl
  | cons p l ih =>
    rw [List.map_cons, List.mapM_cons, ih]
    simp only [readItem, EntryData.ofValue_toValue]
    rfl

theorem map_fst_viaJsonPair {l : List (PyStr × JsonEntry F)} (h : ∀ p ∈ l, PlainPair p) :
    (l.map viaJsonPair).map Prod.fst = l.map Prod.fst := by
  rw [List.map_map]
  apply List.map_congr_left
  intro p hp
  exact viaJsonPair_fst (h p hp)

theorem loads_digestText (st : JsonStore F) (h : ∀ p ∈ st.data.items, PlainPair p) :
    ∃ (v : PyValue F) (d : Digest F PyStr PyStr (PyValue F)),
      loads (digestText st.digest) = some v ∧ readDigest v = some d ∧
      d.items = (st.data.items.map viaJsonPair).map (fun p => (p.1, p.2.toDict)) := by
  have hnodup : ((st.data.items.map viaJsonPair).map Prod.fst).Nodup := by
    rw [map_fst_viaJsonPair h]
    exact st.data.nodup
  have htext : digestText st.digest =
      dumps (.dict (st.data.items.map (fun p => (.str p.1, p.2.toDict.toValue)))) := by
    rw [digestText, DistributedStore.digest, Dict.map, List.map_map]
    rfl
  have hvia : viaJson (.dict (st.data.items.map (fun p => (.str p.1, p.2.toDict.toValue)))) =
      .dict ((st.data.items.map viaJsonPair).map
        (fun p => (.str p.1, p.2.toDict.toValue))) := by
    rw [viaJson, viaJsonItems_digest, ofPairs_eq_self]
    · rw [List.map_map]
      rfl
    · rw [List.map_map] at hnodup ⊢
      have hinj : Function.Injective (PyKey.str : PyStr → PyKey F) := fun _ _ he => PyKey.str.inj he
      have hmap := hnodup.map hinj
      rw [List.map_map] at hmap
      exact hmap
  refine ⟨_, Dict.ofList ((st.data.items.map viaJsonPair).map (fun p => (p.1, p.2.toDict))),
    htext ▸ loads_dumps _, ?_, ?_⟩
  · rw [hvia, readDigest, mapM_readItem]
    rfl
  · rw [Dict.items_ofList, ofPairs_eq_self]
    rw [List.map_map]
    exact hnodup

theorem loadSnapshot_digestText (r : Recovered F) (st : JsonStore F)
    (h : ∀ p ∈ st.data.items, PlainPair p) :
    loadSnapshot r (some (digestText st.digest)) =
      some ⟨(r.store.merge (st.data.items.map viaJsonPair)).store,
        r.count + (st.data.items.map viaJsonPair).length⟩ := by
  obtain ⟨v, d, hv, hd, hitems⟩ := loads_digestText st h
  have hpairs : d.items.map (fun p => (p.1, Entry.fromDict p.2)) =
      st.data.items.map viaJsonPair := by
    rw [hitems, List.map_map]
    exact List.map_id _
  simp only [loadSnapshot, hv, hd, Option.map_some, DistributedStore.applyDigest, hpairs]
  rw [← hpairs, List.length_map]

/-- The log after `rs` were committed. -/
def walText (rs : List (PyStr × JsonEntry F)) : Text := rs.flatMap (fun p => record p ++ ['\n'])

section
omit [LinearOrder F]

theorem walText_concat (rs : List (PyStr × JsonEntry F)) (p : PyStr × JsonEntry F) :
    walText (rs ++ [p]) = walText rs ++ (record p ++ ['\n']) := by
  simp [walText]

theorem not_lineEnd_record {p : PyStr × JsonEntry F} (h : c ∈ record p) : isLineEnd c = false := by
  have hle := le_toNat_dumps _ c h
  rw [isLineEnd, Bool.or_eq_false_iff, decide_eq_false_iff_not, decide_eq_false_iff_not]
  constructor
  · intro he
    subst he
    exact absurd hle (by decide)
  · intro he
    subst he
    exact absurd hle (by decide)

theorem splitOnP_walText (rs : List (PyStr × JsonEntry F)) (tail : Text)
    (h : ∀ c ∈ tail, isLineEnd c = false) :
    (walText rs ++ tail).splitOnP isLineEnd = rs.map record ++ [tail] := by
  induction rs with
  | nil => exact List.splitOnP_eq_singleton h
  | cons p rs ih =>
    have hcons : walText (p :: rs) ++ tail = record p ++ '\n' :: (walText rs ++ tail) := by
      simp [walText]
    rw [hcons, List.splitOnP_append_cons_of_forall_mem (fun c hc => not_lineEnd_record hc) _ rfl,
      ih]
    rfl

theorem last_dumpsItemsRest (l : List (PyKey F × PyValue F)) :
    ∃ t, dumpsItemsRest l = t ++ ['\x7d'] := by
  induction l with
  | nil => exact ⟨[], by rw [dumpsItemsRest, List.nil_append]⟩
  | cons x l ih =>
    obtain ⟨t, ht⟩ := ih
    refine ⟨',' :: (dumpsStr (keyStr x.1) ++ ':' :: (dumps x.2 ++ t)), ?_⟩
    rw [dumpsItemsRest, ht]
    simp only [List.cons_append, List.append_assoc]

theorem record_ends (p : PyStr × JsonEntry F) : ∃ t, record p = '\x7b' :: (t ++ ['\x7d']) := by
  obtain ⟨t, ht⟩ := last_dumpsItemsRest [(PyKey.str entryField, p.2.toDict.toValue)]
  refine ⟨dumpsStr keyField ++ ':' :: (dumps (.str p.1 : PyValue F) ++ t), ?_⟩
  have hdumps : record p = '\x7b' :: (dumpsStr keyField ++ ':' :: (dumps (.str p.1 : PyValue F) ++
      dumpsItemsRest [(.str entryField, p.2.toDict.toValue)])) := rfl
  rw [hdumps, ht]
  simp only [List.cons_append, List.append_assoc]

end

theorem strip_brace (t : Text) : strip ('\x7b' :: t) = ('\x7b' :: t).rdropWhile isSpace := by
  rw [strip, List.dropWhile_cons_of_neg (by decide)]

section
omit [LinearOrder F]

theorem strip_record (p : PyStr × JsonEntry F) : strip (record p) = record p := by
  obtain ⟨t, ht⟩ := record_ends p
  rw [ht, strip_brace, ← List.cons_append]
  exact List.rdropWhile_concat_neg _ _ _ (by decide)

theorem record_ne_nil (p : PyStr × JsonEntry F) : record p ≠ [] := by
  obtain ⟨t, ht⟩ := record_ends p
  rw [ht]
  exact List.cons_ne_nil _ _

end

theorem replay_record (r : Recovered F) (p : PyStr × JsonEntry F) (lines : List Text) :
    replay r (record p :: lines) =
      replay ⟨(r.store.mergeEntry (viaJsonPair p).1 (viaJsonPair p).2).store, r.count + 1⟩
        lines := by
  obtain ⟨v, hv, hp⟩ := loads_record p
  rw [replay, strip_record, if_neg (record_ne_nil p), hv]
  simp only [hp]

theorem replay_records (r : Recovered F) (rs : List (PyStr × JsonEntry F)) (lines : List Text) :
    replay r (rs.map record ++ lines) =
      replay ⟨(r.store.merge (rs.map viaJsonPair)).store, r.count + (rs.map viaJsonPair).length⟩
        lines := by
  induction rs generalizing r with
  | nil => rfl
  | cons p rs ih =>
    rw [List.map_cons, List.cons_append, replay_record, ih, List.map_cons, List.length_cons,
      Nat.add_right_comm, ← Nat.add_assoc]
    rfl

theorem replay_torn (r : Recovered F) {p : PyStr × JsonEntry F} {k : ℕ}
    (hk : k < (record p).length) : replay r [(record p).take k] = some r := by
  cases k with
  | zero => rfl
  | succ k =>
    obtain ⟨t, ht⟩ := record_ends p
    have htake : (record p).take (k + 1) = '\x7b' :: (t ++ ['\x7d']).take k := by
      rw [ht, List.take_succ_cons]
    obtain ⟨u, hu⟩ := List.rdropWhile_prefix isSpace ((record p).take (k + 1))
    have hstrip : strip ((record p).take (k + 1)) =
        ((record p).take (k + 1)).rdropWhile isSpace := by
      rw [htake, strip_brace]
    have hne : strip ((record p).take (k + 1)) ≠ [] := by
      rw [hstrip]
      intro hnil
      have hall := (List.rdropWhile_eq_nil_iff (p := isSpace)).1 hnil '\x7b'
        (by rw [htake]; exact List.mem_cons_self)
      cases hall
    have hsplit : dumps (.dict [(.str keyField, .str p.1), (.str entryField, p.2.toDict.toValue)]) =
        strip ((record p).take (k + 1)) ++ (u ++ (record p).drop (k + 1)) := by
      rw [hstrip, ← List.append_assoc, hu, List.take_append_drop]
      rfl
    have hrest : u ++ (record p).drop (k + 1) ≠ [] := by
      intro hnil
      have hlen := congrArg List.length (List.append_eq_nil_iff.1 hnil).2
      rw [List.length_drop, List.length_nil] at hlen
      omega
    rw [replay, if_neg hne, loads_dict_take hsplit hne hrest]

/-- The log holds the records `rs`: each on a line of its own, up to a last line that may be
unterminated or break off. -/
inductive LogOf : Text → List (PyStr × JsonEntry F) → Prop
  | lines (rs : List (PyStr × JsonEntry F)) : LogOf (walText rs) rs
  | torn (rs : List (PyStr × JsonEntry F)) (p : PyStr × JsonEntry F) {k : ℕ}
      (hk : k < (record p).length) : LogOf (walText rs ++ (record p).take k) rs
  | unterminated (rs : List (PyStr × JsonEntry F)) (p : PyStr × JsonEntry F) :
      LogOf (walText rs ++ record p) (rs ++ [p])

theorem LogOf.replay {rs : List (PyStr × JsonEntry F)} (h : LogOf wal rs) (r : Recovered F) :
    replay r (wal.splitOnP isLineEnd) =
      some ⟨(r.store.merge (rs.map viaJsonPair)).store,
        r.count + (rs.map viaJsonPair).length⟩ := by
  cases h with
  | lines =>
    have hsplit := splitOnP_walText rs [] (fun c hc => by cases hc)
    rw [List.append_nil] at hsplit
    rw [hsplit, replay_records]
    rfl
  | @torn _ p k hk =>
    have hsplit := splitOnP_walText rs ((record p).take k)
      (fun c hc => not_lineEnd_record (List.mem_of_mem_take hc))
    rw [hsplit, replay_records, replay_torn _ hk]
  | unterminated rs p =>
    have hsplit := splitOnP_walText rs (record p) (fun c hc => not_lineEnd_record hc)
    have hone : rs.map record ++ [record p] = (rs ++ [p]).map record ++ [] := by simp
    rw [hsplit, hone, replay_records]
    rfl

/-- The log is empty or its last line is complete. -/
def Terminated (wal : Text) : Prop := wal.getLast?.getD '\n' = '\n'

instance (wal : Text) : Decidable (Terminated wal) := instDecidableEqChar _ _

theorem not_terminated_append {wal tail : Text} (hne : tail ≠ [])
    (h : ∀ c ∈ tail, isLineEnd c = false) : ¬ Terminated (wal ++ tail) := by
  intro ht
  rw [Terminated, List.getLast?_append_of_ne_nil _ hne, List.getLast?_eq_some_getLast hne] at ht
  have hfalse := h _ (List.getLast_mem hne)
  rw [Option.getD_some] at ht
  rw [ht] at hfalse
  cases hfalse

section
omit [LinearOrder F]

theorem LogOf.eq_walText {rs : List (PyStr × JsonEntry F)} (h : LogOf wal rs)
    (ht : Terminated wal) : wal = walText rs := by
  cases h with
  | lines => rfl
  | @torn _ p k hk =>
    by_cases hnil : (record p).take k = []
    · rw [hnil, List.append_nil]
    · exact absurd ht (not_terminated_append hnil
        (fun c hc => not_lineEnd_record (List.mem_of_mem_take hc)))
  | unterminated rs p =>
    exact absurd ht (not_terminated_append (record_ne_nil p) (fun c hc => not_lineEnd_record hc))

theorem LogOf.appendLine {rs : List (PyStr × JsonEntry F)} (h : LogOf wal rs)
    (ht : Terminated wal) (p : PyStr × JsonEntry F) :
    LogOf (wal ++ (record p ++ ['\n'])) (rs ++ [p]) := by
  rw [h.eq_walText ht, ← walText_concat]
  exact .lines _

theorem LogOf.append {rs : List (PyStr × JsonEntry F)} (h : LogOf wal rs)
    (ht : Terminated wal) (p : PyStr × JsonEntry F) (k : ℕ) :
    LogOf (wal ++ (record p ++ ['\n']).take k) rs ∨
      LogOf (wal ++ (record p ++ ['\n']).take k) (rs ++ [p]) := by
  rcases lt_trichotomy k (record p).length with hk | hk | hk
  · rw [h.eq_walText ht, List.take_append_of_le_length hk.le]
    exact .inl (.torn rs p hk)
  · rw [h.eq_walText ht, hk, List.take_left]
    exact .inr (.unterminated rs p)
  · have hlen : (record p ++ ['\n']).length ≤ k := by
      rw [List.length_append]
      exact hk
    rw [List.take_of_length_le hlen]
    exact .inr (h.appendLine ht p)

end

end Suprime
