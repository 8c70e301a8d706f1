import Suprime.Subscribers

namespace Suprime
set_option autoImplicit true

variable {T ν κ : Type} {α : Type u} [LinearOrder T] [LinearOrder ν] [DecidableEq κ]

/-- What an operation leaves when it returns or raises, and the calls that it has made to the
subscribers of commits. -/
structure Attempt (T ν κ : Type) (α : Type u) where
  store : DistributedStore T ν κ α
  raised : Bool
  committed : List (κ × Entry T ν α)

/-- `_notify` calls the subscribers in order and raises with the first one that does. -/
def notifyRaises (subscribers : ℕ) (raises : ℕ → Bool) : Bool := (List.range subscribers).any raises

/-- An operation that changes the data first, then notifies if it does at all, and commits last. -/
def Outcome.attempt (o : Outcome T ν κ α ρ) (raises : Bool) : Attempt T ν κ α :=
  if !o.notified.isEmpty && raises then ⟨o.store, true, []⟩ else ⟨o.store, false, o.committed⟩

section
omit [LinearOrder T] [LinearOrder ν] [DecidableEq κ]

theorem Outcome.attempt_store (o : Outcome T ν κ α ρ) (raises : Bool) :
    (o.attempt raises).store = o.store := by
  unfold attempt
  split
  · rfl
  · rfl

end

namespace DistributedStore

/-- The loop of `merge`. The `i`-th entry meets callbacks that raise or do not. -/
def mergeRaising (s : DistributedStore T ν κ α) (raises : ℕ → Bool) :
    List (κ × Entry T ν α) → Attempt T ν κ α
  | [] => ⟨s, false, []⟩
  | (key, entry) :: snapshot =>
    let a := (s.mergeEntry key entry).attempt (raises 0)
    if a.raised then a
    else
      let a' := a.store.mergeRaising (fun i => raises (i + 1)) snapshot
      ⟨a'.store, a'.raised, a.committed ++ a'.committed⟩

/-- Every entry of the data has been passed to the subscribers of commits. -/
def InLog (s : DistributedStore T ν κ α) (logged : List (κ × Entry T ν α)) : Prop :=
  ∀ key e, s.data.get key = some e → (key, e) ∈ logged

section
omit [LinearOrder T] [LinearOrder ν]

theorem InLog.put {s : DistributedStore T ν κ α} {logged : List (κ × Entry T ν α)}
    (h : s.InLog logged) (key : κ) (e : Entry T ν α) {s' : DistributedStore T ν κ α}
    (hs : s'.data = s.data.set key e) (committed : List (κ × Entry T ν α)) :
    s'.InLog (logged ++ committed) ↔ (key, e) ∈ logged ++ committed := by
  constructor
  · intro h'
    apply h' key e
    rw [hs, Dict.get_set_self]
  · intro hmem k x hx
    rw [hs, Dict.get_set] at hx
    by_cases hk : k = key
    · rw [if_pos hk] at hx
      cases hx
      rw [hk]
      exact hmem
    · rw [if_neg hk] at hx
      exact List.mem_append_left _ (h k x hx)

end

/-- Whether the merge of an entry raises, given whether a callback would. -/
def Interrupted (s : DistributedStore T ν κ α) (key : κ) (entry : Entry T ν α) (raises : Bool) :
    Prop :=
  s.Accepts key entry ∧ entry.deleted = false ∧ raises = true

theorem attempt_mergeEntry (s : DistributedStore T ν κ α) (key : κ) (entry : Entry T ν α)
    (raises : Bool) :
    (s.Interrupted key entry raises ∧ ((s.mergeEntry key entry).attempt raises).raised = true ∧
      ((s.mergeEntry key entry).attempt raises).committed = []) ∨
    (¬ s.Interrupted key entry raises ∧
      ((s.mergeEntry key entry).attempt raises).raised = false ∧
      ((s.mergeEntry key entry).attempt raises).committed =
        (s.mergeEntry key entry).committed) := by
  rcases s.mergeEntry_cases key entry with ⟨hlt, he⟩ | ⟨⟨c, hc, hle⟩, he⟩
  · rw [he, Interrupted]
    cases hd : entry.deleted with
    | true => exact .inr ⟨fun h => Bool.noConfusion h.2.1, rfl, rfl⟩
    | false =>
      cases raises with
      | true => exact .inl ⟨⟨hlt, rfl, rfl⟩, rfl, rfl⟩
      | false => exact .inr ⟨fun h => Bool.noConfusion h.2.2, rfl, rfl⟩
  · rw [he]
    exact .inr ⟨fun h => not_lt.2 hle (h.1 c hc), rfl, rfl⟩

/-- A merge that does not raise keeps the log complete, and one that raises does when the entry is
there already. -/
theorem InLog.mergeEntry {s : DistributedStore T ν κ α} {logged : List (κ × Entry T ν α)}
    (h : s.InLog logged) (key : κ) (entry : Entry T ν α) (raises : Bool) :
    (s.mergeEntry key entry).store.InLog
        (logged ++ ((s.mergeEntry key entry).attempt raises).committed) ↔
      (s.Interrupted key entry raises → (key, entry) ∈ logged) := by
  rcases s.attempt_mergeEntry key entry raises with ⟨hi, -, hc⟩ | ⟨hi, -, hc⟩
  · rw [hc]
    rcases s.mergeEntry_cases key entry with ⟨_, he⟩ | ⟨⟨c, hget, hle⟩, _⟩
    · rw [h.put key entry (by rw [he]), List.append_nil]
      exact ⟨fun hmem _ => hmem, fun hmem => hmem hi⟩
    · exact absurd (hi.1 c hget) (not_lt.2 hle)
  · rw [hc]
    refine iff_of_true ?_ (fun hno => absurd hno hi)
    rcases s.mergeEntry_cases key entry with ⟨_, he⟩ | ⟨_, he⟩
    · rw [h.put key entry (by rw [he]), he]
      exact List.mem_append_right _ List.mem_cons_self
    · rw [he, List.append_nil]
      exact h

/-- The first callback of a digest that raises does so for an entry that is in the log. -/
def Kept (s : DistributedStore T ν κ α) (logged : List (κ × Entry T ν α)) :
    (ℕ → Bool) → List (κ × Entry T ν α) → Prop
  | _, [] => True
  | raises, p :: l =>
    (s.Interrupted p.1 p.2 (raises 0) → p ∈ logged) ∧
      (¬ s.Interrupted p.1 p.2 (raises 0) → s.Kept logged (fun i => raises (i + 1)) l)

theorem kept_congr {s s' : DistributedStore T ν κ α} {logged logged' l : List (κ × Entry T ν α)}
    (hget : ∀ p ∈ l, s'.data.get p.1 = s.data.get p.1)
    (hmem : ∀ p ∈ l, p ∈ logged' ↔ p ∈ logged) (raises : ℕ → Bool) :
    s'.Kept logged' raises l ↔ s.Kept logged raises l := by
  induction l generalizing raises with
  | nil => rfl
  | cons p l ih =>
    have hrest := ih (fun q hq => hget q (List.mem_cons_of_mem _ hq))
      (fun q hq => hmem q (List.mem_cons_of_mem _ hq)) (fun i => raises (i + 1))
    have hp : s'.Interrupted p.1 p.2 (raises 0) ↔ s.Interrupted p.1 p.2 (raises 0) := by
      rw [Interrupted, Accepts, hget p List.mem_cons_self]
      rfl
    rw [Kept, Kept, hp, hmem p List.mem_cons_self, hrest]

theorem InLog.mergeRaising {l : List (κ × Entry T ν α)} (hnd : (l.map Prod.fst).Nodup)
    {s : DistributedStore T ν κ α} {logged : List (κ × Entry T ν α)} (h : s.InLog logged)
    (raises : ℕ → Bool) :
    (s.mergeRaising raises l).store.InLog (logged ++ (s.mergeRaising raises l).committed) ↔
      s.Kept logged raises l := by
  induction l generalizing s logged raises with
  | nil =>
    refine iff_of_true ?_ trivial
    rw [DistributedStore.mergeRaising, List.append_nil]
    exact h
  | cons p l ih =>
    obtain ⟨key, entry⟩ := p
    obtain ⟨hp, hnd⟩ := List.nodup_cons.1 hnd
    have hone := h.mergeEntry key entry (raises 0)
    have hstore := (s.mergeEntry key entry).attempt_store (raises 0)
    rw [DistributedStore.mergeRaising, Kept]
    rcases s.attempt_mergeEntry key entry (raises 0) with ⟨hi, hr, hc⟩ | ⟨hi, hr, hc⟩
    · dsimp only
      rw [if_pos hr, hstore, hone]
      exact ⟨fun hmem => ⟨hmem, fun hno => absurd hi hno⟩, fun hkept => hkept.1⟩
    · have hin := hone.2 (fun hno => absurd hno hi)
      have hne : ∀ q ∈ l, q.1 ≠ key := fun q hq he => hp (List.mem_map.2 ⟨q, hq, he⟩)
      have hsame : (s.mergeEntry key entry).store.Kept
          (logged ++ ((s.mergeEntry key entry).attempt (raises 0)).committed)
          (fun i => raises (i + 1)) l ↔ s.Kept logged (fun i => raises (i + 1)) l := by
        apply kept_congr
        · intro q hq
          rw [get_mergeEntry, if_neg (hne q hq)]
        · intro q hq
          rw [hc, List.mem_append, or_iff_left]
          rcases s.mergeEntry_cases key entry with ⟨_, he⟩ | ⟨_, he⟩
          · rw [he, List.mem_singleton]
            exact fun heq => hne q hq (congrArg Prod.fst heq)
          · rw [he]
            exact List.not_mem_nil
      dsimp only
      rw [if_neg (by rw [hr]; exact Bool.false_ne_true), hstore, ← List.append_assoc,
        ih hnd hin, hsame]
      exact ⟨fun hkept => ⟨fun hno => absurd hno hi, fun _ => hkept⟩, fun hkept => hkept.2 hi⟩

end DistributedStore

variable [Timestamp T] [PyNone α]

/-- Calls of the methods of a store, with the subscribers that raise when they are called; in a
digest this depends on the entry too. -/
inductive RaisingOp (T ν κ : Type) (α : Type u)
  | subscribe
  | set (key : κ) (value : α) (clock : T) (raises : ℕ → Bool)
  | delete (key : κ) (clock : T) (raises : ℕ → Bool)
  | mergeEntry (key : κ) (entry : Entry T ν α) (raises : ℕ → Bool)
  | applyDigest (d : Digest T ν κ α) (raises : ℕ → ℕ → Bool)

/-- A store, the number of its subscribers and what has been passed to `_on_commit`. -/
structure LoggedStore (T ν κ : Type) (α : Type u) where
  store : DistributedStore T ν κ α
  subscribers : ℕ
  logged : List (κ × Entry T ν α)

namespace LoggedStore

/-- A store after the recovery of what its log holds. -/
def attached (n : ν) (recovered : List (κ × Entry T ν α)) : LoggedStore T ν κ α :=
  ⟨((DistributedStore.init n).merge recovered).store, 0, recovered⟩

def after (s : LoggedStore T ν κ α) (a : Attempt T ν κ α) : LoggedStore T ν κ α :=
  { s with store := a.store, logged := s.logged ++ a.committed }

def step (s : LoggedStore T ν κ α) : RaisingOp T ν κ α → Option (LoggedStore T ν κ α)
  | .subscribe => some { s with subscribers := s.subscribers + 1 }
  | .set key value clock raises =>
    some (s.after ((s.store.set key value clock).attempt (notifyRaises s.subscribers raises)))
  | .delete key clock raises =>
    some (s.after ((s.store.delete key clock).attempt (notifyRaises s.subscribers raises)))
  | .mergeEntry key entry raises =>
    some (s.after ((s.store.mergeEntry key entry).attempt (notifyRaises s.subscribers raises)))
  | .applyDigest d raises =>
    some (s.after (s.store.mergeRaising (fun i => notifyRaises s.subscribers (raises i))
      (d.items.map (fun p => (p.1, Entry.fromDict p.2)))))

/-- No callback raises when it is told of an entry that the log does not have. -/
def Undisturbed (s : LoggedStore T ν κ α) : RaisingOp T ν κ α → Prop
  | .subscribe => True
  | .set key value clock raises => notifyRaises s.subscribers raises = true →
    (key, ⟨value, ⟨s.store.nextTs clock, s.store.nodeId⟩, false⟩) ∈ s.logged
  | .delete key clock raises =>
    s.store.data.get key ≠ none → notifyRaises s.subscribers raises = true →
      (key, ⟨pyNone, ⟨s.store.nextTs clock, s.store.nodeId⟩, true⟩) ∈ s.logged
  | .mergeEntry key entry raises =>
    s.store.Interrupted key entry (notifyRaises s.subscribers raises) → (key, entry) ∈ s.logged
  | .applyDigest d raises =>
    s.store.Kept s.logged (fun i => notifyRaises s.subscribers (raises i))
      (d.items.map (fun p => (p.1, Entry.fromDict p.2)))

section
omit [LinearOrder T] [LinearOrder ν] [Timestamp T] [PyNone α]

theorem inLog_write {s : LoggedStore T ν κ α} (h : s.store.InLog s.logged) {key : κ}
    {e : Entry T ν α} {o : Outcome T ν κ α ρ} (hs : o.store = s.store.putLocal key e)
    (hn : o.notified = [(key, v)]) (hc : o.committed = [(key, e)]) (raises : Bool) :
    (s.after (o.attempt raises)).store.InLog (s.after (o.attempt raises)).logged ↔
      (raises = true → (key, e) ∈ s.logged) := by
  have hdata : o.store.data = s.store.data.set key e := by
    rw [hs]
    rfl
  have hput := h.put key e hdata
  unfold after
  rw [o.attempt_store]
  dsimp only
  rw [hput, Outcome.attempt, hn, hc]
  cases raises with
  | true => simp
  | false => simp

end

theorem inLog_step {s s' : LoggedStore T ν κ α} (h : s.store.InLog s.logged)
    (hs : s.step a = some s') : s'.store.InLog s'.logged ↔ s.Undisturbed a := by
  cases a with
  | subscribe =>
    cases hs
    exact iff_of_true h trivial
  | set key value clock raises =>
    cases hs
    exact inLog_write h rfl rfl rfl _
  | delete key clock raises =>
    cases hs
    rw [Undisturbed]
    cases hk : s.store.data.get key with
    | none =>
      rw [DistributedStore.delete_of_none hk, after, Outcome.attempt]
      refine iff_of_true ?_ (fun hno => absurd rfl hno)
      rw [List.isEmpty_nil, Bool.not_true, Bool.false_and, if_neg Bool.false_ne_true]
      dsimp only
      rw [List.append_nil]
      exact h
    | some c =>
      rw [DistributedStore.delete_of_some hk, inLog_write h rfl rfl rfl]
      exact ⟨fun hmem _ => hmem, fun hmem => hmem (Option.some_ne_none c)⟩
  | mergeEntry key entry raises =>
    cases hs
    unfold after
    rw [Outcome.attempt_store]
    exact h.mergeEntry key entry _
  | applyDigest d raises =>
    cases hs
    exact h.mergeRaising (d.map Entry.fromDict).nodup _

/-- After every operation of a run, whether it returned or raised, what is in memory has been
passed to the log exactly when no callback raises for an entry that the log does not have. -/
theorem in_log_iff_undisturbed {n : ν} {recovered : List (κ × Entry T ν α)}
    {s : LoggedStore T ν κ α} (hrun : Run LoggedStore.step (.attached n recovered) past s) :
    (∀ t, Visited past s t → t.store.InLog t.logged) ↔ ∀ p ∈ past, p.1.Undisturbed p.2 := by
  have hstart : (attached n recovered : LoggedStore T ν κ α).store.InLog recovered := by
    intro key e he
    cases DistributedStore.get_merge_mem he with
    | inl hinit => cases hinit
    | inr hmem => exact hmem
  exact hrun.visited_iff (I := fun s => s.store.InLog s.logged) (J := fun _ => True) hstart
    trivial (fun _ _ _ _ _ => trivial) (fun _ _ _ _ h hs => inLog_step h hs)

/-- The callback raises for a tombstone's key only, which merges do not tell it of. -/
def spared : List (RaisingOp ℕ ℕ ℕ (Option ℕ)) :=
  [.subscribe, .set 0 (some 7) 1 (fun _ => false),
    .applyDigest (.ofList [(0, ⟨none, 2, 1, some true⟩), (1, ⟨some (some 3), 4, 1, none⟩)])
      (fun i _ => i = 0)]

theorem in_log_spared : ∃ past, ∃ s : LoggedStore ℕ ℕ ℕ (Option ℕ),
    Run LoggedStore.step (.attached 0 []) past s ∧ s.logged.length = 3 ∧
    ((∀ t, Visited past s t → t.store.InLog t.logged) ↔ ∀ p ∈ past, p.1.Undisturbed p.2) := by
  obtain ⟨past, s, hrun, hlogged⟩ := exists_run_of_exec LoggedStore.step
    (.attached 0 [] : LoggedStore ℕ ℕ ℕ (Option ℕ)) spared (fun s => s.logged.length) 3 (by decide)
  exact ⟨past, s, hrun, hlogged, in_log_iff_undisturbed hrun⟩

/-- The value is in memory when the callback raises, and `_emit_commit` is not reached. -/
theorem raising_callback_skips_log :
    ¬ ∀ (recovered : List (ℕ × Entry ℕ ℕ (Option ℕ))) past (s : LoggedStore ℕ ℕ ℕ (Option ℕ)),
      Run LoggedStore.step (.attached 0 recovered) past s →
      ∀ t, Visited past s t → t.store.InLog t.logged := by
  intro hclaim
  obtain ⟨past, s, hrun, hread⟩ := exists_run_of_exec LoggedStore.step (.attached 0 [])
    [.subscribe, .set 0 (some 7) 1 (fun _ => true)]
    (fun s : LoggedStore ℕ ℕ ℕ (Option ℕ) => (s.store.data.get 0, s.logged))
    (some ⟨some 7, ⟨1, 0⟩, false⟩, []) (by decide)
  rw [Prod.mk.injEq] at hread
  have hmem := hclaim [] past s hrun s (.inl rfl) 0 _ hread.1
  rw [hread.2] at hmem
  cases hmem

end LoggedStore

end Suprime
