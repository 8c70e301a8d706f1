import Suprime.Durability
import Suprime.JsonNative

namespace Suprime
set_option autoImplicit true

variable {F : Type} [LinearOrder F] [FiniteFloat F] [Timestamp F]

/-- The operations of a store that commit. -/
inductive StoreCall (F : Type)
  | set (key : PyStr) (value : PyValue F) (clock : F)
  | delete (key : PyStr) (clock : F)
  | mergeEntry (key : PyStr) (entry : JsonEntry F)
  | merge (snapshot : List (PyStr × JsonEntry F))
  | applyDigest (digest : Digest F PyStr PyStr (PyValue F))

/-- The calls one by one: each runs its callback before the next one starts. -/
def StoreCall.commitCalls : StoreCall F → List (CommitCall F)
  | .set key value clock => [.set key value clock]
  | .delete key clock => [.delete key clock]
  | .mergeEntry key entry => [.mergeEntry key entry]
  | .merge snapshot => snapshot.map (fun p => .mergeEntry p.1 p.2)
  | .applyDigest digest => digest.items.map (fun p => .mergeEntry p.1 (Entry.fromDict p.2))

/-- Operations, extra snapshots, and the ways in which the process can stop: between operations,
in an extra snapshot, or in a snapshot that the commit of the `j`-th call of an operation starts. -/
inductive CompactAction (F : Type)
  | call (c : StoreCall F)
  | snapshot
  | crash
  | crashInSnapshot (point : SnapshotPoint)
  | crashInCall (c : StoreCall F) (j : ℕ) (point : SnapshotPoint)

namespace Sessions

/-- A fresh store with a manager that is attached to an empty directory. -/
def attached (n : PyStr) (snapshotEvery : ℕ) : Sessions F :=
  ⟨⟨none, []⟩, some ⟨.init n, snapshotEvery, 0⟩, []⟩

def calls (s : Sessions F) : List (CommitCall F) → Option (Sessions F)
  | [] => some s
  | c :: cs => (s.step (.call c)).bind (fun t => t.calls cs)

/-- The call `c` up to a crash in the snapshot that it starts. -/
def snapshotInCall (s : Sessions F) (c : CommitCall F) (point : SnapshotPoint) :
    Option (Sessions F) :=
  s.live.bind (fun pm =>
    let (store, commits) := c.apply pm.store
    match commits with
    | [p] =>
      (s.onCommitUntil { pm with store := store } p (.snapshot point)).map
        (fun d => ⟨d, none, s.returned ++ [p]⟩)
    | _ => none)

/-- A step of one process. Here the history holds all records that were appended to the log. -/
def compact (s : Sessions F) : CompactAction F → Option (Sessions F)
  | .call c => s.live.bind (fun _ => s.calls c.commitCalls)
  | .snapshot =>
    s.live.map (fun pm =>
      { s with
        disk := (s.disk.replace pm.store).truncate
        live := some { pm with sinceSnapshot := 0 } })
  | .crash => s.step .crash
  | .crashInSnapshot point => s.step (.crashInStop point)
  | .crashInCall c j point =>
    (s.calls (c.commitCalls.take j)).bind (fun t =>
      (c.commitCalls[j]?).bind (fun next => t.snapshotInCall next point))

/-- Every commit of a list of calls meets a condition. -/
def AllCommits (C : JsonStore F → PyStr × JsonEntry F → Prop) (s : Sessions F) :
    List (CommitCall F) → Prop
  | [] => True
  | c :: cs =>
    (∀ pm, s.live = some pm → ∀ p ∈ (c.apply pm.store).2, C pm.store p) ∧
      ∀ t, s.step (.call c) = some t → AllCommits C t cs

def Commits (C : JsonStore F → PyStr × JsonEntry F → Prop) (s : Sessions F) :
    CompactAction F → Prop
  | .call c => s.AllCommits C c.commitCalls
  | .crashInCall c j _ => s.AllCommits C (c.commitCalls.take (j + 1))
  | _ => True

end Sessions

/-- The version of an entry exceeds the one that it replaces. -/
def Exceeds (st : JsonStore F) (p : PyStr × JsonEntry F) : Prop :=
  ∀ c, st.data.get p.1 = some c → c.version < p.2.version

/-- The replay of `ps` gives the data of a store, through JSON. -/
def Replays (ps : List (PyStr × JsonEntry F)) (st : JsonStore F) : Prop :=
  ∀ n k, ((DistributedStore.init n).merge (ps.map viaJsonPair)).store.data.get k =
    (st.data.get k).map viaJsonEntry

theorem Replays.concat {ps : List (PyStr × JsonEntry F)} {st st' : JsonStore F}
    (h : Replays ps st) (hplain : ∀ q ∈ st.data.items, PlainPair q) (hp : PlainPair p)
    (hex : Exceeds st p) (hst : st'.data = st.data.set p.1 p.2) : Replays (ps ++ [p]) st' := by
  intro n k
  have hone : ∀ t : JsonStore F, (t.merge [viaJsonPair p]).store =
      (t.mergeEntry (viaJsonPair p).1 (viaJsonPair p).2).store := fun _ => rfl
  rw [List.map_append, List.map_singleton, DistributedStore.merge_append, hone,
    DistributedStore.get_mergeEntry, viaJsonPair_fst hp, hst, Dict.get_set, h, h]
  by_cases hk : k = p.1
  · rw [if_pos hk, if_pos hk]
    cases hget : st.data.get p.1 with
    | none => rfl
    | some c =>
      have hc := viaJsonPair_version (hplain (p.1, c) (Dict.mem_items.2 hget))
      have hlt : (viaJsonEntry c).version < (viaJsonPair p).2.version := by
        rw [viaJsonPair_version hp]
        exact hc.symm ▸ hex c hget
      exact congrArg some (if_pos hlt)
  · rw [if_neg hk, if_neg hk]

theorem Replays.covered {ps qs : List (PyStr × JsonEntry F)} {st : JsonStore F}
    (h : Replays ps st) (hplain : ∀ q ∈ st.data.items, PlainPair q) (hq : ∀ q ∈ qs, PlainPair q)
    (hcov : Covers st.data.items qs) : Replays (ps ++ qs) st := by
  induction qs using List.reverseRecOn with
  | nil =>
    rw [List.append_nil]
    exact h
  | append_singleton qs q ih =>
    have hq' : PlainPair q := hq q (List.mem_append_right _ (List.mem_singleton_self _))
    obtain ⟨c, hc, hkey, hle⟩ := hcov q (List.mem_append_right _ (List.mem_singleton_self _))
    have hqs := ih (fun x hx => hq x (List.mem_append_left _ hx))
      (fun x hx => hcov x (List.mem_append_left _ hx))
    intro n k
    have hone : ∀ t : JsonStore F, (t.merge [viaJsonPair q]).store =
        (t.mergeEntry (viaJsonPair q).1 (viaJsonPair q).2).store := fun _ => rfl
    rw [← List.append_assoc, List.map_append, List.map_singleton, DistributedStore.merge_append,
      hone, DistributedStore.get_mergeEntry, viaJsonPair_fst hq', hqs, hqs]
    by_cases hk : k = q.1
    · have hget : st.data.get q.1 = some c.2 := hkey ▸ Dict.mem_items.1 hc
      have hv := viaJsonPair_version (hplain c hc)
      have hnot : ¬ (viaJsonEntry c.2).version < (viaJsonPair q).2.version := by
        rw [viaJsonPair_version hq', not_lt]
        exact hv.symm ▸ hle
      rw [if_pos hk, hk, hget]
      exact congrArg some (if_neg hnot)
    · rw [if_neg hk]

theorem replays_items {st : JsonStore F} (hplain : ∀ q ∈ st.data.items, PlainPair q) :
    Replays st.data.items st := by
  intro n k
  have hnewest := DistributedStore.isNewest_merge
    (DistributedStore.init n : JsonStore F).isNewest_self (st.data.items.map viaJsonPair) k
  have hoffered : ∀ e, e ∈ DistributedStore.offered (st.data.items.map viaJsonPair) k ↔
      (st.data.get k).map viaJsonEntry = some e := by
    intro e
    constructor
    · intro he
      obtain ⟨p, hp, hpe⟩ := List.mem_map.1 he
      have hkey : p.1 = k := (viaJsonPair_fst (hplain p hp)).symm.trans (congrArg Prod.fst hpe)
      have hentry : viaJsonEntry p.2 = e := congrArg Prod.snd hpe
      rw [← hkey, Dict.mem_items.1 hp, Option.map_some, hentry]
    · intro he
      obtain ⟨c, hc, hce⟩ := Option.map_eq_some_iff.1 he
      have hmem : (k, c) ∈ st.data.items := Dict.mem_items.2 hc
      apply List.mem_map.2
      exact ⟨(k, c), hmem, Prod.ext (viaJsonPair_fst (hplain _ hmem)) hce⟩
  cases hget :
      ((DistributedStore.init n).merge (st.data.items.map viaJsonPair)).store.data.get k with
  | none =>
    rw [hget] at hnewest
    cases hst : (st.data.get k).map viaJsonEntry with
    | none => rfl
    | some e =>
      have he := Set.mem_union_right
        {e | (DistributedStore.init n : JsonStore F).data.get k = some e} ((hoffered e).2 hst)
      rw [show _ = (∅ : Set (JsonEntry F)) from hnewest] at he
      cases he
  | some e =>
    cases DistributedStore.get_merge_mem hget with
    | inl hinit => cases hinit
    | inr hmem => exact ((hoffered e).1 hmem).symm

namespace Sessions

/-- The directory and the complete log both replay to the store. -/
structure Compacted (s : Sessions F) (ps : List (PyStr × JsonEntry F)) (st : JsonStore F) :
    Prop where
  has : s.disk.Has ps
  plain : ∀ p ∈ st.data.items, PlainPair p
  covers : Covers st.data.items ps
  replays : Replays ps st
  log : Replays s.returned st
  logPlain : ∀ p ∈ s.returned, PlainPair p
  live : ∀ pm, s.live = some pm → pm.store = st ∧ Terminated s.disk.wal

theorem compacted_attached (n : PyStr) (snapshotEvery : ℕ) :
    (attached n snapshotEvery : Sessions F).Compacted [] (.init n) where
  has := show Disk.Has _ ([] ++ []) from .mk .none (.lines []) (fun p hp => by cases hp)
  plain p hp := by cases hp
  covers q hq := by cases hq
  replays _ _ := rfl
  log _ _ := rfl
  logPlain p hp := by cases hp
  live pm hpm := by
    cases hpm
    exact ⟨rfl, rfl⟩

theorem Compacted.appendLine {s : Sessions F} {ps : List (PyStr × JsonEntry F)}
    {st st' : JsonStore F} (h : s.Compacted ps st) (ht : Terminated s.disk.wal)
    (hp : PlainPair p) (hex : Exceeds st p) (hst : st'.data = st.data.set p.1 p.2)
    (live : Option (PersistenceManager F)) (hlive : ∀ pm, live = some pm → pm.store = st') :
    (⟨s.disk.appendLine p, live, s.returned ++ [p]⟩ : Sessions F).Compacted (ps ++ [p]) st' where
  has := h.has.appendLine ht hp
  plain q hq := plainPair_of_mem_set h.plain hp (hst ▸ hq)
  covers := by
    rw [hst]
    exact h.covers.set (fun c hc => (hex c hc).le)
  replays := h.replays.concat h.plain hp hex hst
  log := h.log.concat h.plain hp hex hst
  logPlain q hq := by
    cases List.mem_append.1 hq with
    | inl hq => exact h.logPlain q hq
    | inr hq => exact List.mem_singleton.1 hq ▸ hp
  live pm hpm := by
    refine ⟨hlive pm hpm, ?_⟩
    rw [Terminated, Disk.appendLine, ← List.append_assoc, List.getLast?_concat]
    rfl

theorem Compacted.snapshotUntil {s : Sessions F} {ps : List (PyStr × JsonEntry F)}
    {st : JsonStore F} (h : s.Compacted ps st) (point : SnapshotPoint)
    (live : Option (PersistenceManager F))
    (hlive : ∀ pm, live = some pm → pm.store = st ∧ point = .afterTruncate) :
    ∃ ps', (⟨s.disk.snapshotUntil st point, live, s.returned⟩ : Sessions F).Compacted ps' st := by
  have hdisk : ∃ ps', (s.disk.snapshotUntil st point).Has ps' ∧ Covers st.data.items ps' ∧
      Replays ps' st := by
    cases point with
    | beforeReplace => exact ⟨ps, h.has, h.covers, h.replays⟩
    | beforeTruncate =>
      cases h.has with
      | @mk items rs snapshot log plain =>
        have hrs : Covers st.data.items rs := fun q hq => h.covers q (List.mem_append_right _ hq)
        have hplain : ∀ q ∈ rs, PlainPair q := fun q hq => plain q (List.mem_append_right _ hq)
        refine ⟨st.data.items ++ rs, .mk (.some st) log ?_, (Covers.refl _).append hrs,
          (replays_items h.plain).covered h.plain hplain hrs⟩
        intro q hq
        cases List.mem_append.1 hq with
        | inl hq => exact h.plain q hq
        | inr hq => exact hplain q hq
    | afterTruncate =>
      have hnil : st.data.items ++ [] = st.data.items := List.append_nil _
      refine ⟨st.data.items ++ [], .mk (.some st) (.lines []) ?_, ?_, ?_⟩
      · rw [hnil]
        exact h.plain
      · rw [hnil]
        exact Covers.refl _
      · rw [hnil]
        exact replays_items h.plain
  obtain ⟨ps', hhas, hcov, hrep⟩ := hdisk
  refine ⟨ps', hhas, h.plain, hcov, hrep, h.log, h.logPlain, ?_⟩
  intro pm hpm
  obtain ⟨hstore, rfl⟩ := hlive pm hpm
  exact ⟨hstore, rfl⟩

theorem call_cases {s t : Sessions F} {c : CommitCall F} (h : s.step (.call c) = some t) :
    ∃ pm, s.live = some pm ∧
      ((∃ p st, c.apply pm.store = (st, [p]) ∧ st.data = pm.store.data.set p.1 p.2 ∧
        t = s.onCommit { pm with store := st } p) ∨ t = s) := by
  obtain ⟨pm, hpm, h⟩ := Option.bind_eq_some_iff.1 h
  refine ⟨pm, hpm, ?_⟩
  cases c.apply_cases pm.store with
  | inl hnone =>
    simp only [hnone, Option.some.injEq] at h
    apply Or.inr
    rw [← h, ← hpm]
  | inr hone =>
    obtain ⟨p, st, hone, hdata⟩ := hone
    simp only [hone, Option.some.injEq] at h
    exact .inl ⟨p, st, hone, hdata, h.symm⟩

/-- The commits of a call keep both replays. -/
def Good (st : JsonStore F) (p : PyStr × JsonEntry F) : Prop := PlainPair p ∧ Exceeds st p

theorem Compacted.call {s t : Sessions F} {ps : List (PyStr × JsonEntry F)} {st : JsonStore F}
    {c : CommitCall F} (h : s.Compacted ps st)
    (hC : ∀ pm, s.live = some pm → ∀ p ∈ (c.apply pm.store).2, Good pm.store p)
    (hs : s.step (.call c) = some t) : ∃ ps' st', t.Compacted ps' st' := by
  obtain ⟨pm, hpm, hcase⟩ := call_cases hs
  cases hcase with
  | inr he => exact ⟨ps, st, he ▸ h⟩
  | inl hcommit =>
    obtain ⟨p, st', hone, hdata, rfl⟩ := hcommit
    obtain ⟨rfl, ht⟩ := h.live pm hpm
    obtain ⟨hp, hex⟩ := hC pm hpm p (by rw [hone]; exact List.mem_singleton_self _)
    rw [onCommit]
    split
    · have happ := h.appendLine ht hp hex hdata none (fun _ hpm => by cases hpm)
      obtain ⟨ps', hps'⟩ := happ.snapshotUntil .afterTruncate
        (some ⟨st', pm.snapshotEvery, 0⟩) (fun _ hpm => by cases hpm; exact ⟨rfl, rfl⟩)
      exact ⟨ps', st', hps'⟩
    · exact ⟨_, st', h.appendLine ht hp hex hdata (some ⟨st', _, _⟩)
        (fun _ hpm => by cases hpm; rfl)⟩

theorem Compacted.calls {s t : Sessions F} {ps : List (PyStr × JsonEntry F)} {st : JsonStore F}
    {cs : List (CommitCall F)} (h : s.Compacted ps st) (hC : s.AllCommits Good cs)
    (hs : s.calls cs = some t) : ∃ ps' st', t.Compacted ps' st' := by
  induction cs generalizing s ps st with
  | nil =>
    cases hs
    exact ⟨ps, st, h⟩
  | cons c cs ih =>
    obtain ⟨u, hu, hs⟩ := Option.bind_eq_some_iff.1 hs
    obtain ⟨ps', st', h'⟩ := h.call hC.1 hu
    exact ih h' (hC.2 u hu) hs

theorem AllCommits.append {s t : Sessions F} {C : JsonStore F → PyStr × JsonEntry F → Prop}
    {cs ds : List (CommitCall F)} (h : s.AllCommits C (cs ++ ds)) (ht : s.calls cs = some t) :
    s.AllCommits C cs ∧ t.AllCommits C ds := by
  induction cs generalizing s with
  | nil =>
    cases ht
    exact ⟨trivial, h⟩
  | cons c cs ih =>
    obtain ⟨u, hu, ht⟩ := Option.bind_eq_some_iff.1 ht
    obtain ⟨hc, hcs⟩ := h
    obtain ⟨hcs', hds⟩ := ih (hcs u hu) ht
    refine ⟨⟨hc, ?_⟩, hds⟩
    intro u' hu'
    rw [hu] at hu'
    cases hu'
    exact hcs'

theorem Compacted.snapshotInCall {s t : Sessions F} {ps : List (PyStr × JsonEntry F)}
    {st : JsonStore F} {c : CommitCall F} {point : SnapshotPoint} (h : s.Compacted ps st)
    (hC : ∀ pm, s.live = some pm → ∀ p ∈ (c.apply pm.store).2, Good pm.store p)
    (hs : s.snapshotInCall c point = some t) : ∃ ps' st', t.Compacted ps' st' := by
  obtain ⟨pm, hpm, hs⟩ := Option.bind_eq_some_iff.1 hs
  cases c.apply_cases pm.store with
  | inl hnone =>
    simp only [hnone] at hs
    cases hs
  | inr hone =>
    obtain ⟨p, st', hone, hdata⟩ := hone
    simp only [hone] at hs
    obtain ⟨rfl, ht⟩ := h.live pm hpm
    obtain ⟨hp, hex⟩ := hC pm hpm p (by rw [hone]; exact List.mem_singleton_self _)
    obtain ⟨d, hd, rfl⟩ := Option.map_eq_some_iff.1 hs
    simp only [onCommitUntil] at hd
    split at hd
    · cases hd
      have happ := h.appendLine ht hp hex hdata none (fun _ hpm => by cases hpm)
      obtain ⟨ps', hps'⟩ := happ.snapshotUntil point none (fun _ hpm => by cases hpm)
      exact ⟨ps', st', hps'⟩
    · cases hd

theorem Compacted.compact {s t : Sessions F} {ps : List (PyStr × JsonEntry F)}
    {st : JsonStore F} {a : CompactAction F} (h : s.Compacted ps st) (hC : s.Commits Good a)
    (hs : s.compact a = some t) : ∃ ps' st', t.Compacted ps' st' := by
  cases a with
  | call c =>
    obtain ⟨_, _, hs⟩ := Option.bind_eq_some_iff.1 hs
    exact h.calls hC hs
  | snapshot =>
    obtain ⟨pm, hpm, rfl⟩ := Option.map_eq_some_iff.1 hs
    obtain ⟨rfl, _⟩ := h.live pm hpm
    obtain ⟨ps', hps'⟩ := h.snapshotUntil .afterTruncate
      (some { pm with sinceSnapshot := 0 }) (fun _ hpm => by cases hpm; exact ⟨rfl, rfl⟩)
    exact ⟨ps', _, hps'⟩
  | crash =>
    obtain ⟨pm, _, rfl⟩ := Option.map_eq_some_iff.1 hs
    exact ⟨ps, st, h.has, h.plain, h.covers, h.replays, h.log, h.logPlain,
      fun _ hpm => by cases hpm⟩
  | crashInSnapshot point =>
    obtain ⟨pm, hpm, rfl⟩ := Option.map_eq_some_iff.1 hs
    obtain ⟨rfl, _⟩ := h.live pm hpm
    obtain ⟨ps', hps'⟩ := h.snapshotUntil point none (fun _ hpm => by cases hpm)
    exact ⟨ps', _, hps'⟩
  | crashInCall c j point =>
    obtain ⟨u, hu, hs⟩ := Option.bind_eq_some_iff.1 hs
    obtain ⟨next, hnext, hs⟩ := Option.bind_eq_some_iff.1 hs
    have htake : c.commitCalls.take (j + 1) = c.commitCalls.take j ++ [next] := by
      rw [List.take_add_one, hnext]
      rfl
    have hall : s.AllCommits Good (c.commitCalls.take (j + 1)) := hC
    rw [htake] at hall
    obtain ⟨hbefore, hlast⟩ := hall.append hu
    obtain ⟨ps', st', h'⟩ := h.calls hbefore hu
    exact h'.snapshotInCall hlast.1 hs

theorem exists_compacted {s : Sessions F} (h : Run compact (attached n snapshotEvery) past s)
    (hC : ∀ p ∈ past, p.1.Commits Good p.2) : ∃ ps st, s.Compacted ps st :=
  h.invariant (I := fun s => ∃ ps st, s.Compacted ps st) (C := Commits Good) hC
    ⟨[], _, compacted_attached n snapshotEvery⟩ (fun _ _ _ ⟨_, _, hs⟩ hc ht => hs.compact hc ht)

instance (C : JsonStore F → PyStr × JsonEntry F → Prop) [∀ st p, Decidable (C st p)]
    (s : Sessions F) (cs : List (CommitCall F)) : Decidable (s.AllCommits C cs) := by
  induction cs generalizing s with
  | nil => exact isTrue trivial
  | cons c cs ih => exact instDecidableAnd

instance (C : JsonStore F → PyStr × JsonEntry F → Prop) [∀ st p, Decidable (C st p)]
    (s : Sessions F) (a : CompactAction F) : Decidable (s.Commits C a) :=
  match a with
  | .call c => inferInstanceAs (Decidable (s.AllCommits C c.commitCalls))
  | .crashInCall c j _ => inferInstanceAs (Decidable (s.AllCommits C (c.commitCalls.take (j + 1))))
  | .snapshot => isTrue trivial
  | .crash => isTrue trivial
  | .crashInSnapshot _ => isTrue trivial

instance (st : JsonStore F) (p : PyStr × JsonEntry F) : Decidable (Exceeds st p) :=
  inferInstanceAs (Decidable (∀ c, st.data.get p.1 = some c → _))

instance (st : JsonStore F) (p : PyStr × JsonEntry F) : Decidable (Good st p) :=
  instDecidableAnd

instance (v : PyValue F) : Decidable (viaJson v = v) :=
  decidable_of_iff _ (viaJson_eq_self_iff v).symm

end Sessions

open Sessions

/-- Wherever the process stops, the snapshot and the log give the same data as the complete log,
when the versions grow and JSON keeps the keys and the origins. -/
theorem compaction_keeps_data {s : Sessions F} {past : List (Sessions F × CompactAction F)}
    {n : PyStr} {snapshotEvery : ℕ} (h : Run compact (attached n snapshotEvery) past s)
    (hC : ∀ p ∈ past, p.1.Commits Good p.2) :
    ∃ r r' : Recovered F, recover n s.disk = some r ∧
      recover n ⟨none, walText s.returned⟩ = some r' ∧ r.store.data.Same r'.store.data := by
  obtain ⟨ps, st, hs⟩ := exists_compacted h hC
  have hlog : (⟨none, walText s.returned⟩ : Disk).Has s.returned :=
    show Disk.Has _ ([] ++ s.returned) from .mk .none (.lines _) hs.logPlain
  refine ⟨_, _, hs.has.recover n, hlog.recover n, ?_⟩
  intro k
  exact (hs.replays n k).trans (hs.log n k).symm

/-- A digest whose second entry starts a snapshot, and a crash before the log is truncated. -/
theorem compaction_keeps_data_of_digest :
    ∃ (past : List (Sessions ℕ × CompactAction ℕ)) (s : Sessions ℕ),
      Run compact (attached [110] 3) past s ∧
      (s.disk.snapshot.isSome, s.returned.length) = (true, 4) ∧
      ∃ r r' : Recovered ℕ, recover [110] s.disk = some r ∧
        recover [110] ⟨none, walText s.returned⟩ = some r' ∧
        r.store.data.Same r'.store.data := by
  obtain ⟨past, s, hr, hC, hs⟩ := exists_run_of_execWhere compact (Commits Good)
    (attached [110] 3 : Sessions ℕ)
    [.call (.set [97] (.int 1) 10), .snapshot, .call (.set [97] (.int 2) 11),
      .crashInCall
        (.merge [([97], ⟨.none, ⟨12, [111]⟩, true⟩), ([98], ⟨.int 3, ⟨5, [111]⟩, false⟩)])
        1 .beforeTruncate]
    (fun s => (s.disk.snapshot.isSome, s.returned.length)) (true, 4) (by decide)
  exact ⟨past, s, hr, hs, compaction_keeps_data hr hC⟩

/-- Two keys that JSON writes the same way: one is a character, the other its two surrogates. The
snapshot holds both, and the older entry is read last. -/
theorem compaction_mixes_keys : ¬ ∀ (snapshotEvery : ℕ) (past : List (Sessions ℕ × CompactAction ℕ))
    (s : Sessions ℕ), 1 ≤ snapshotEvery → Run compact (attached [110] snapshotEvery) past s →
    (∀ p ∈ past, p.1.Commits (fun st p => Exceeds st p ∧ viaJson p.2.value = p.2.value) p.2) →
    ∃ r r' : Recovered ℕ, recover [110] s.disk = some r ∧
      recover [110] ⟨none, walText s.returned⟩ = some r' ∧
      r.store.data.Same r'.store.data := by
  intro hclaim
  obtain ⟨past, s, hr, hC, hs⟩ := exists_run_of_execWhere compact
    (Commits (fun st p => Exceeds st p ∧ viaJson p.2.value = p.2.value))
    (attached [110] 3 : Sessions ℕ)
    [.call (.set [55357, 56832] (.int 1) 10), .call (.set [128512] (.int 2) 11),
      .call (.set [55357, 56832] (.int 3) 12)]
    (fun s => ((recover [110] s.disk).map
        (fun r : Recovered ℕ => (r.store.data.get [128512]).map (·.version.ts)),
      (recover [110] ⟨none, walText s.returned⟩).map
        (fun r : Recovered ℕ => (r.store.data.get [128512]).map (·.version.ts))))
    (some (some 11), some (some 12)) (by decide +kernel)
  obtain ⟨r, r', hdisk, hlog, hsame⟩ := hclaim 3 past s (by decide) hr hC
  rw [hdisk, hlog, Option.map_some, Option.map_some, hsame [128512]] at hs
  obtain ⟨hfst, hsnd⟩ := Prod.mk.inj hs
  rw [hfst] at hsnd
  cases hsnd

end Suprime
