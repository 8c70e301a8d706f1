import Suprime.Run
import Suprime.WalRecovery

namespace Suprime
set_option autoImplicit true

variable {F : Type} [LinearOrder F] [FiniteFloat F]

/-- For every pair of `qs` there is one in `ps` with its key and at least its version. -/
def Covers (ps qs : List (PyStr × JsonEntry F)) : Prop :=
  ∀ q ∈ qs, ∃ p ∈ ps, p.1 = q.1 ∧ q.2.version ≤ p.2.version

section
omit [FiniteFloat F]

theorem Covers.refl (ps : List (PyStr × JsonEntry F)) : Covers ps ps :=
  fun p hp => ⟨p, hp, rfl, le_rfl⟩

theorem Covers.trans {ps qs rs : List (PyStr × JsonEntry F)} (h : Covers ps qs)
    (h' : Covers qs rs) : Covers ps rs := by
  intro r hr
  obtain ⟨q, hq, hk, hv⟩ := h' r hr
  obtain ⟨p, hp, hk', hv'⟩ := h q hq
  exact ⟨p, hp, hk'.trans hk, hv.trans hv'⟩

theorem Covers.left {ps qs : List (PyStr × JsonEntry F)} (h : Covers ps qs)
    (rs : List (PyStr × JsonEntry F)) : Covers (ps ++ rs) qs := by
  intro q hq
  obtain ⟨p, hp, hpq⟩ := h q hq
  exact ⟨p, List.mem_append_left _ hp, hpq⟩

theorem Covers.append {ps qs rs : List (PyStr × JsonEntry F)} (h : Covers ps qs)
    (h' : Covers ps rs) : Covers ps (qs ++ rs) := by
  intro q hq
  rcases List.mem_append.1 hq with hq | hq
  · exact h q hq
  · exact h' q hq

/-- A store that replaces an entry by a version that is not older covers what it covered. -/
theorem Covers.set {d : Dict PyStr (JsonEntry F)} {ps : List (PyStr × JsonEntry F)}
    {p : PyStr × JsonEntry F} (h : Covers d.items ps)
    (hp : ∀ c, d.get p.1 = some c → c.version ≤ p.2.version) :
    Covers (d.set p.1 p.2).items (ps ++ [p]) := by
  have hself : (p.1, p.2) ∈ (d.set p.1 p.2).items := Dict.mem_items.2 (Dict.get_set_self _ _ _)
  apply Covers.append
  · intro q hq
    obtain ⟨x, hx, hk, hv⟩ := h q hq
    have hget := Dict.mem_items.1 hx
    by_cases hxp : x.1 = p.1
    · rw [hxp] at hget
      exact ⟨_, hself, hxp.symm.trans hk, hv.trans (hp _ hget)⟩
    · rw [← Dict.get_set_ne d p.2 hxp] at hget
      exact ⟨x, Dict.mem_items.2 hget, hk, hv⟩
  · intro q hq
    rw [List.mem_singleton] at hq
    subst hq
    exact ⟨_, hself, rfl, le_rfl⟩

end

inductive SnapshotOf : Option Text → List (PyStr × JsonEntry F) → Prop
  | none : SnapshotOf none []
  | some (st : JsonStore F) : SnapshotOf (some (digestText st.digest)) st.data.items

/-- What a directory holds: the entries of the snapshot and then those of the log. -/
inductive Disk.Has (d : Disk) : List (PyStr × JsonEntry F) → Prop
  | mk {items rs : List (PyStr × JsonEntry F)} (snapshot : SnapshotOf d.snapshot items)
      (log : LogOf d.wal rs) (plain : ∀ p ∈ items ++ rs, PlainPair p) : Disk.Has d (items ++ rs)

section
omit [LinearOrder F]

theorem Disk.Has.plainPair {d : Disk} {ps : List (PyStr × JsonEntry F)} (h : d.Has ps)
    (hp : p ∈ ps) : PlainPair p := by
  cases h with
  | mk _ _ plain => exact plain p hp

theorem Disk.Has.appendLine {d : Disk} {ps : List (PyStr × JsonEntry F)} (h : d.Has ps)
    (ht : Terminated d.wal) (hp : PlainPair p) : (d.appendLine p).Has (ps ++ [p]) := by
  cases h with
  | mk snapshot log plain =>
    rw [List.append_assoc]
    refine .mk snapshot (log.appendLine ht p) ?_
    intro q hq
    rw [← List.append_assoc, List.mem_append, List.mem_singleton] at hq
    rcases hq with hq | rfl
    · exact plain q hq
    · exact hp

end

theorem Disk.Has.append {d : Disk} {ps : List (PyStr × JsonEntry F)} (h : d.Has ps)
    (ht : Terminated d.wal) {p : PyStr × JsonEntry F} (hp : PlainPair p) (k : ℕ) :
    ∃ ps' : List (PyStr × JsonEntry F), (d.append p k).Has ps' ∧ Covers ps' ps := by
  cases h with
  | @mk items rs snapshot log plain =>
    rcases log.append ht p k with hlog | hlog
    · exact ⟨_, .mk snapshot hlog plain, Covers.refl _⟩
    · refine ⟨items ++ (rs ++ [p]), .mk snapshot hlog ?_, ?_⟩
      · intro q hq
        rw [← List.append_assoc, List.mem_append, List.mem_singleton] at hq
        rcases hq with hq | rfl
        · exact plain q hq
        · exact hp
      · rw [← List.append_assoc]
        exact (Covers.refl _).left [p]

/-- Wherever a crash stops `snapshot`, the directory still covers what it covered, provided that
the store does, and it holds nothing that is newer than the store. -/
theorem Disk.Has.snapshotUntil {d : Disk} {ps : List (PyStr × JsonEntry F)} (h : d.Has ps)
    {st : JsonStore F} (hst : ∀ p ∈ st.data.items, PlainPair p) (hcov : Covers st.data.items ps)
    (point : SnapshotPoint) :
    ∃ ps', (d.snapshotUntil st point).Has ps' ∧ Covers ps' ps ∧ Covers st.data.items ps' := by
  cases point with
  | beforeReplace => exact ⟨ps, h, Covers.refl _, hcov⟩
  | beforeTruncate =>
    cases h with
    | @mk items rs snapshot log plain =>
      have hrs : Covers st.data.items rs := fun q hq => hcov q (List.mem_append_right _ hq)
      refine ⟨st.data.items ++ rs, .mk (.some st) log ?_, hcov.left rs,
        (Covers.refl _).append hrs⟩
      intro q hq
      rcases List.mem_append.1 hq with hq | hq
      · exact hst q hq
      · exact plain q (List.mem_append_right _ hq)
  | afterTruncate =>
    refine ⟨st.data.items ++ [], .mk (.some st) (.lines []) ?_, hcov.left [], ?_⟩
    · rw [List.append_nil]
      exact hst
    · rw [List.append_nil]
      exact Covers.refl _

variable [Timestamp F]

theorem Disk.Has.recover {d : Disk} {ps : List (PyStr × JsonEntry F)} (h : d.Has ps) (n : PyStr) :
    Suprime.recover n d =
      some ⟨((DistributedStore.init n).merge (ps.map viaJsonPair)).store, ps.length⟩ := by
  cases h with
  | @mk items rs snapshot log plain =>
    have hload : loadSnapshot ⟨.init n, 0⟩ d.snapshot =
        some ⟨((DistributedStore.init n).merge (items.map viaJsonPair)).store, items.length⟩ := by
      cases hs : d.snapshot with
      | none =>
        rw [hs] at snapshot
        cases snapshot
        rfl
      | some t =>
        rw [hs] at snapshot
        cases snapshot with
        | some st =>
          have hst : ∀ p ∈ st.data.items, PlainPair p :=
            fun p hp => plain p (List.mem_append_left _ hp)
          rw [loadSnapshot_digestText _ _ hst, List.length_map, Nat.zero_add]
    rw [Suprime.recover, hload, Option.bind_some, log.replay, List.length_map,
      List.length_append, List.map_append, DistributedStore.merge_append]

section
omit [Timestamp F]

theorem covers_merge {ps : List (PyStr × JsonEntry F)} (hps : ∀ p ∈ ps, PlainPair p)
    (st : JsonStore F) : Covers (st.merge (ps.map viaJsonPair)).store.data.items ps := by
  intro p hp
  have hnewest := DistributedStore.isNewest_merge st.isNewest_self (ps.map viaJsonPair) p.1
  have hp' : viaJsonPair p ∈ ps.map viaJsonPair := List.mem_map_of_mem hp
  have hmem : (viaJsonPair p).2 ∈ DistributedStore.offered (ps.map viaJsonPair) p.1 := by
    rw [← viaJsonPair_fst (hps p hp)]
    exact hp'
  obtain ⟨e, he, hle⟩ := hnewest.le (Set.mem_union_right _ hmem)
  rw [viaJsonPair_version (hps p hp)] at hle
  exact ⟨(p.1, e), Dict.mem_items.2 he, rfl, hle⟩

end

theorem plainPair_of_mem_merge {ps : List (PyStr × JsonEntry F)} (hps : ∀ p ∈ ps, PlainPair p)
    {n : PyStr} {q : PyStr × JsonEntry F}
    (hq : q ∈ ((DistributedStore.init n).merge (ps.map viaJsonPair)).store.data.items) :
    PlainPair q := by
  rcases DistributedStore.get_merge_mem (Dict.mem_items.1 hq) with hinit | hmem
  · cases hinit
  · obtain ⟨p, hp, hpq⟩ := List.mem_map.1 hmem
    have hplain := plainPair_viaJsonPair (hps p hp)
    rw [hpq] at hplain
    exact hplain

section
omit [FiniteFloat F]

theorem CommitCall.apply_cases (c : CommitCall F) (s : JsonStore F) :
    c.apply s = (s, []) ∨
      ∃ p st, c.apply s = (st, [p]) ∧ st.data = s.data.set p.1 p.2 := by
  cases c with
  | set key value clock => exact .inr ⟨_, _, rfl, rfl⟩
  | delete key clock =>
    cases hk : s.data.get key with
    | none =>
      rw [apply, DistributedStore.delete_of_none hk]
      exact .inl rfl
    | some e =>
      rw [apply, DistributedStore.delete_of_some hk]
      exact .inr ⟨_, _, rfl, rfl⟩
  | mergeEntry key entry =>
    rcases s.mergeEntry_cases key entry with ⟨_, he⟩ | ⟨_, he⟩
    · rw [apply, he]
      exact .inr ⟨_, _, rfl, rfl⟩
    · rw [apply, he]
      exact .inl rfl

end

namespace Sessions

/-- What a commit must meet: the log ends with a complete line, JSON keeps the key and the
origin, and the entry is not older than the one that it replaces. -/
def MeetsCommit (s : Sessions F) (st : JsonStore F) (p : PyStr × JsonEntry F) : Prop :=
  Terminated s.disk.wal ∧ PlainPair p ∧ ∀ c, st.data.get p.1 = some c → c.version ≤ p.2.version

def MeetsCall (s : Sessions F) (c : CommitCall F) : Prop :=
  ∀ pm, s.live = some pm → ∀ p ∈ (c.apply pm.store).2, s.MeetsCommit pm.store p

def Meets (s : Sessions F) : SessionAction F → Prop
  | .call c => s.MeetsCall c
  | .crashInCall c _ => s.MeetsCall c
  | _ => True

instance (o : Option α) (P : α → Prop) [DecidablePred P] : Decidable (∀ a, o = some a → P a) :=
  match o with
  | none => isTrue (fun _ h => by cases h)
  | some a => decidable_of_iff (P a) ⟨fun h _ he => Option.some.inj he ▸ h, fun h => h a rfl⟩

instance (s : Sessions F) (st : JsonStore F) (p : PyStr × JsonEntry F) :
    Decidable (s.MeetsCommit st p) := instDecidableAnd

instance (s : Sessions F) (c : CommitCall F) : Decidable (s.MeetsCall c) :=
  inferInstanceAs (Decidable (∀ pm, s.live = some pm → _))

instance (s : Sessions F) (a : SessionAction F) : Decidable (s.Meets a) :=
  match a with
  | .call c => inferInstanceAs (Decidable (s.MeetsCall c))
  | .crashInCall c _ => inferInstanceAs (Decidable (s.MeetsCall c))
  | .start _ _ => isTrue trivial
  | .stop => isTrue trivial
  | .crash => isTrue trivial
  | .crashInStop _ => isTrue trivial

/-- The directory covers every commit that has returned, and the running store covers the
directory. -/
structure Sound (s : Sessions F) (ps : List (PyStr × JsonEntry F)) : Prop where
  has : s.disk.Has ps
  returned : Covers ps s.returned
  plain : ∀ pm, s.live = some pm → ∀ p ∈ pm.store.data.items, PlainPair p
  live : ∀ pm, s.live = some pm → Covers pm.store.data.items ps

section
omit [Timestamp F]

theorem Sound.init : (Sessions.init : Sessions F).Sound [] where
  has := show Disk.Has _ ([] ++ []) from .mk .none (.lines []) (fun p hp => by cases hp)
  returned q hq := by cases hq
  plain pm hpm := by cases hpm
  live pm hpm := by cases hpm

end

theorem step_cases {s s' : Sessions F} {a : SessionAction F} (h : s.step a = some s') :
    (∃ n N r, s.live = none ∧ recover n s.disk = some r ∧
      s' = { s with live := some ⟨r.store, N, 0⟩ }) ∨
    (s' = s ∨ s' = { s with live := none }) ∨
    (∃ pm point, s.live = some pm ∧
      s' = { s with disk := s.disk.snapshotUntil pm.store point, live := none }) ∨
    (∃ pm p st, s.live = some pm ∧ st.data = pm.store.data.set p.1 p.2 ∧
      (s.Meets a → s.MeetsCommit pm.store p) ∧
      (s' = s.onCommit { pm with store := st } p ∨
        (∃ k, s' = { s with disk := s.disk.append p k, live := none }) ∨
        ∃ point, s' = { s with
          disk := (s.disk.appendLine p).snapshotUntil st point, live := none })) := by
  cases a with
  | start n N =>
    simp only [step] at h
    cases hl : s.live with
    | some pm => rw [hl] at h; cases h
    | none =>
      rw [hl] at h
      obtain ⟨r, hr, rfl⟩ := Option.map_eq_some_iff.1 h
      exact .inl ⟨n, N, r, rfl, hr, rfl⟩
  | call c =>
    obtain ⟨pm, hpm, h⟩ := Option.bind_eq_some_iff.1 h
    rcases c.apply_cases pm.store with hc | ⟨p, st, hc, hst⟩
    · rw [hc] at h
      cases h
      refine .inr (.inl (.inl ?_))
      rw [← hpm]
    · rw [hc] at h
      cases h
      refine .inr (.inr (.inr ⟨pm, p, st, hpm, hst, ?_, .inl rfl⟩))
      intro hm
      apply hm pm hpm
      rw [hc]
      exact List.mem_singleton_self p
  | stop =>
    obtain ⟨pm, hpm, rfl⟩ := Option.map_eq_some_iff.1 h
    exact .inr (.inr (.inl ⟨pm, .afterTruncate, hpm, rfl⟩))
  | crash =>
    obtain ⟨pm, hpm, rfl⟩ := Option.map_eq_some_iff.1 h
    exact .inr (.inl (.inr rfl))
  | crashInCall c point =>
    obtain ⟨pm, hpm, h⟩ := Option.bind_eq_some_iff.1 h
    rcases c.apply_cases pm.store with hc | ⟨p, st, hc, hst⟩
    · rw [hc] at h
      cases h
    · rw [hc] at h
      obtain ⟨d, hd, rfl⟩ := Option.map_eq_some_iff.1 h
      refine .inr (.inr (.inr ⟨pm, p, st, hpm, hst, ?_, .inr ?_⟩))
      · intro hm
        apply hm pm hpm
        rw [hc]
        exact List.mem_singleton_self p
      · cases point with
        | append k =>
          cases hd
          exact .inl ⟨k, rfl⟩
        | snapshot point =>
          simp only [onCommitUntil] at hd
          split at hd
          · cases hd
            exact .inr ⟨point, rfl⟩
          · cases hd
  | crashInStop point =>
    obtain ⟨pm, hpm, rfl⟩ := Option.map_eq_some_iff.1 h
    exact .inr (.inr (.inl ⟨pm, point, hpm, rfl⟩))

section
omit [Timestamp F]

/-- A state in which no process runs is sound as soon as its directory covers the commits. -/
theorem Sound.stopped {d : Disk} {ps returned : List (PyStr × JsonEntry F)} (h : d.Has ps)
    (hcov : Covers ps returned) : (⟨d, none, returned⟩ : Sessions F).Sound ps where
  has := h
  returned := hcov
  plain pm hpm := by cases hpm
  live pm hpm := by cases hpm

theorem Sound.running {d : Disk} {pm : PersistenceManager F}
    {ps returned : List (PyStr × JsonEntry F)} (h : d.Has ps) (hcov : Covers ps returned)
    (hplain : ∀ p ∈ pm.store.data.items, PlainPair p) (hlive : Covers pm.store.data.items ps) :
    (⟨d, some pm, returned⟩ : Sessions F).Sound ps where
  has := h
  returned := hcov
  plain pm' hpm := by
    cases hpm
    exact hplain
  live pm' hpm := by
    cases hpm
    exact hlive

end

section
omit [FiniteFloat F] [LinearOrder F] [Timestamp F]

theorem plainPair_of_mem_set {d : Dict PyStr (JsonEntry F)} {p q : PyStr × JsonEntry F}
    (hd : ∀ p ∈ d.items, PlainPair p) (hp : PlainPair p) (hq : q ∈ (d.set p.1 p.2).items) :
    PlainPair q := by
  have hget := Dict.mem_items.1 hq
  rw [Dict.get_set] at hget
  by_cases hk : q.1 = p.1
  · rw [if_pos hk, Option.some.injEq] at hget
    rw [show q = p from Prod.ext hk hget.symm]
    exact hp
  · rw [if_neg hk] at hget
    exact hd q (Dict.mem_items.2 hget)

end

section
omit [Timestamp F]

theorem Sound.onCommit {s : Sessions F} {ps : List (PyStr × JsonEntry F)} (h : s.Sound ps)
    {pm : PersistenceManager F} {p : PyStr × JsonEntry F}
    (hd : (s.disk.appendLine p).Has (ps ++ [p]))
    (hplain : ∀ q ∈ pm.store.data.items, PlainPair q)
    (hcov : Covers pm.store.data.items (ps ++ [p])) :
    ∃ ps', (s.onCommit pm p).Sound ps' := by
  have hret : Covers (ps ++ [p]) (s.returned ++ [p]) := by
    apply (h.returned.left [p]).append
    intro q hq
    exact ⟨q, List.mem_append_right _ hq, rfl, le_rfl⟩
  unfold Sessions.onCommit
  split
  · obtain ⟨ps', hps', hold, hnew⟩ := hd.snapshotUntil hplain hcov .afterTruncate
    exact ⟨ps', .running hps' (hold.trans hret) hplain hnew⟩
  · exact ⟨ps ++ [p], .running hd hret hplain hcov⟩

end

theorem Sound.step {s s' : Sessions F} {ps : List (PyStr × JsonEntry F)} {a : SessionAction F}
    (h : s.Sound ps) (hm : s.Meets a) (hs : s.step a = some s') : ∃ ps', s'.Sound ps' := by
  rcases step_cases hs with ⟨n, N, r, _, hr, rfl⟩ | (rfl | rfl) | ⟨pm, point, hpm, rfl⟩ |
    ⟨pm, p, st, hpm, hst, hmeets, hs'⟩
  · rw [h.has.recover, Option.some.injEq] at hr
    subst hr
    have hps : ∀ p ∈ ps, PlainPair p := fun p hp => h.has.plainPair hp
    exact ⟨ps, .running h.has h.returned (fun q hq => plainPair_of_mem_merge hps hq)
      (covers_merge hps _)⟩
  · exact ⟨ps, h⟩
  · exact ⟨ps, .stopped h.has h.returned⟩
  · obtain ⟨ps', hps', hold, _⟩ := h.has.snapshotUntil (h.plain pm hpm) (h.live pm hpm) point
    exact ⟨ps', .stopped hps' (hold.trans h.returned)⟩
  · obtain ⟨hterm, hp, hle⟩ := hmeets hm
    have hline := h.has.appendLine hterm hp
    have hcov : Covers st.data.items (ps ++ [p]) := by
      rw [hst]
      exact (h.live pm hpm).set hle
    have hplain : ∀ q ∈ st.data.items, PlainPair q := by
      rw [hst]
      exact fun q hq => plainPair_of_mem_set (h.plain pm hpm) hp hq
    rcases hs' with rfl | ⟨k, rfl⟩ | ⟨point, rfl⟩
    · exact h.onCommit hline hplain hcov
    · obtain ⟨ps', hps', hold⟩ := h.has.append hterm hp k
      exact ⟨ps', .stopped hps' (hold.trans h.returned)⟩
    · obtain ⟨ps', hps', hold, _⟩ := hline.snapshotUntil hplain hcov point
      exact ⟨ps', .stopped hps' (hold.trans (h.returned.left [p]))⟩

theorem exists_sound_of_run {s : Sessions F} (h : Run Sessions.step Sessions.init past s)
    (hm : ∀ p ∈ past, p.1.Meets p.2) : ∃ ps, s.Sound ps :=
  h.invariant (I := fun s => ∃ ps, s.Sound ps) (C := Sessions.Meets) hm ⟨[], .init⟩
    (fun _ _ _ ⟨_, hps⟩ hm hs => hps.step hm hs)

end Sessions

/-- In every run whose commits go to a log that ends with a complete line, are kept by JSON and
are not older than what they replace, recovery succeeds in every state and every commit that has
returned is reflected by it. -/
theorem commits_survive_crashes {s : Sessions F} (h : Run Sessions.step Sessions.init past s)
    (hm : ∀ p ∈ past, p.1.Meets p.2) (n : PyStr) :
    ∃ r, recover n s.disk = some r ∧
      ∀ p ∈ s.returned, ∃ e, r.store.data.get p.1 = some e ∧ p.2.version ≤ e.version := by
  obtain ⟨ps, hps⟩ := Sessions.exists_sound_of_run h hm
  refine ⟨_, hps.has.recover n, ?_⟩
  intro p hp
  have hplain : ∀ q ∈ ps, PlainPair q := fun q hq => hps.has.plainPair hq
  obtain ⟨q, hq, hk, hv⟩ := (covers_merge hplain (.init n)).trans hps.returned p hp
  rw [← hk]
  exact ⟨q.2, Dict.mem_items.1 hq, hv⟩

/-- The second process finds a torn record and stops properly, which empties the log, and the
commit of the third one survives its crash. -/
theorem commits_survive_crash_and_restart :
    ∃ (past : List (Sessions ℕ × SessionAction ℕ)) (s : Sessions ℕ),
      Run Sessions.step Sessions.init past s ∧ (∀ p ∈ past, p.1.Meets p.2) ∧
      s.returned.map (fun p => (p.1, p.2.version.ts)) = [([97], 10), ([98], 30)] ∧
      ∃ r, recover [110] s.disk = some r ∧
        ∀ p ∈ s.returned, ∃ e, r.store.data.get p.1 = some e ∧ p.2.version ≤ e.version := by
  obtain ⟨past, s, hr, hm, hs⟩ := exists_run_of_execWhere Sessions.step
    Sessions.Meets (Sessions.init : Sessions ℕ)
    [.start [110] 200, .call (.set [97] (.int 1) 10),
      .crashInCall (.set [98] (.int 2) 20) (.append 12), .start [110] 200, .stop,
      .start [110] 200, .call (.set [98] (.int 3) 30), .crash]
    (fun s => s.returned.map (fun p => (p.1, p.2.version.ts))) [([97], 10), ([98], 30)]
    (by decide)
  exact ⟨past, s, hr, hm, hs, commits_survive_crashes hr hm [110]⟩

/-- A commit that is appended to a torn record is lost: its line is not JSON. -/
theorem commit_after_torn_record_is_lost :
    ¬ ∀ (past : List (Sessions ℕ × SessionAction ℕ)) (s : Sessions ℕ),
      Run Sessions.step Sessions.init past s → ∀ n, ∃ r, recover n s.disk = some r ∧
        ∀ p ∈ s.returned, ∃ e, r.store.data.get p.1 = some e ∧ p.2.version ≤ e.version := by
  intro h
  obtain ⟨past, s, hr, hs⟩ := exists_run_of_exec Sessions.step (Sessions.init : Sessions ℕ)
    [.start [110] 200, .crashInCall (.set [97] (.int 1) 10) (.append 12), .start [110] 200,
      .call (.set [98] (.int 2) 20), .crash]
    (fun s => (s.returned.map Prod.fst,
      (recover [110] s.disk).map (fun r : Recovered ℕ => (r.store.data.get [98]).isSome)))
    ([[98]], some false) (by decide)
  obtain ⟨hret, hrec⟩ := Prod.mk.inj hs
  obtain ⟨r, hr', hall⟩ := h past s hr [110]
  rw [hr', Option.map_some, Option.some.injEq] at hrec
  obtain ⟨p, hp, hk⟩ := List.mem_map.1 (hret ▸ List.mem_singleton_self _ :
    ([98] : PyStr) ∈ s.returned.map Prod.fst)
  obtain ⟨e, he, _⟩ := hall p hp
  rw [hk] at he
  rw [he] at hrec
  cases hrec

end Suprime
