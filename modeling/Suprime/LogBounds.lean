import Suprime.Durability

namespace Suprime
set_option autoImplicit true

variable [LinearOrder F] [FiniteFloat F] [Timestamp F]

/-- The number of records in the log: the lines that are not blank. -/
def Disk.walSize (d : Disk) : ℕ :=
  (d.wal.splitOnP isLineEnd).countP (fun line => strip line ≠ [])

section
omit [Timestamp F] [LinearOrder F]

theorem Disk.walSize_of_wal {d : Disk} {rs : List (PyStr × JsonEntry F)}
    (h : d.wal = walText rs) : d.walSize = rs.length := by
  have hsplit := splitOnP_walText rs [] (fun c hc => by cases hc)
  rw [List.append_nil] at hsplit
  rw [walSize, h, hsplit, List.countP_append, List.countP_map]
  have hall : rs.countP ((fun line => decide (strip line ≠ [])) ∘ record) = rs.length := by
    apply List.countP_eq_length.2
    intro p _
    apply decide_eq_true
    rw [strip_record]
    exact record_ne_nil p
  rw [hall]
  rfl

end

/-- A snapshot is due in the commit that is being recorded. -/
def PersistenceManager.due (pm : PersistenceManager F) : Bool :=
  pm.sinceSnapshot ≠ 0 && pm.snapshotEvery ≤ pm.sinceSnapshot

/-- A directory and the process that uses it, if one is running. The last field is history: the
records that the process found in the log, as long as they are there. -/
structure LogHistory (F : Type) where
  disk : Disk
  live : Option (PersistenceManager F)
  found : ℕ

/-- A commit is its append, and the snapshot if one is due then. -/
inductive LogAction (F : Type)
  | start (n : PyStr)
  | append (c : CommitCall F)
  | snapshot
  | close
  | crash

namespace LogHistory

def init : LogHistory F := ⟨⟨none, []⟩, none, 0⟩

def step (snapshotEvery : ℕ) (s : LogHistory F) : LogAction F → Option (LogHistory F)
  | .start n =>
    match s.live with
    | some _ => none
    | none =>
      (recover n s.disk).map
        (fun r => ⟨s.disk, some ⟨r.store, snapshotEvery, 0⟩, s.disk.walSize⟩)
  | .append c =>
    s.live.bind (fun pm =>
      if pm.due then none
      else
        let (store, commits) := c.apply pm.store
        match commits with
        | [] => some { s with live := some { pm with store := store } }
        | [p] => some { s with
            disk := s.disk.appendLine p
            live := some { pm with store := store, sinceSnapshot := pm.sinceSnapshot + 1 } }
        | _ => none)
  | .snapshot =>
    s.live.map (fun pm =>
      ⟨(s.disk.replace pm.store).truncate, some { pm with sinceSnapshot := 0 }, 0⟩)
  | .close => s.live.bind (fun pm => if pm.due then none else some { s with live := none })
  | .crash => s.live.map (fun _ => { s with live := none })

/-- A commit in a session that found records is one of those for which there is room. -/
def Fits (snapshotEvery : ℕ) (s : LogHistory F) : LogAction F → Prop
  | .append c => ∀ pm, s.live = some pm → (c.apply pm.store).2 ≠ [] →
    s.found = 0 ∨ s.found + pm.sinceSnapshot < snapshotEvery
  | _ => True

/-- The log holds what the process found and what it has counted. -/
def Counted (snapshotEvery : ℕ) (s : LogHistory F) : Prop :=
  ∃ rs : List (PyStr × JsonEntry F), s.disk.wal = walText rs ∧ ∀ pm, s.live = some pm →
    pm.snapshotEvery = snapshotEvery ∧ rs.length = s.found + pm.sinceSnapshot

theorem append_cases {s s' : LogHistory F} {c : CommitCall F}
    (h : step N s (.append c) = some s') : ∃ pm, s.live = some pm ∧ pm.due = false ∧
      ((∃ store, c.apply pm.store = (store, []) ∧
          s' = { s with live := some { pm with store := store } }) ∨
        ∃ store p, c.apply pm.store = (store, [p]) ∧ s' = { s with
          disk := s.disk.appendLine p
          live := some { pm with store := store, sinceSnapshot := pm.sinceSnapshot + 1 } }) := by
  obtain ⟨pm, hpm, h⟩ := Option.bind_eq_some_iff.1 h
  cases hdue : pm.due with
  | true =>
    rw [hdue] at h
    cases h
  | false =>
    rw [hdue] at h
    refine ⟨pm, hpm, hdue, ?_⟩
    rcases c.apply_cases pm.store with hc | ⟨p, st, hc, -⟩
    · rw [hc] at h
      cases h
      exact .inl ⟨_, hc, rfl⟩
    · rw [hc] at h
      cases h
      exact .inr ⟨st, p, hc, rfl⟩

section
omit [Timestamp F] [LinearOrder F]

theorem Counted.init (N : ℕ) : (init : LogHistory F).Counted N :=
  ⟨[], rfl, fun _ h => by cases h⟩

end

theorem Counted.step {s s' : LogHistory F} {a : LogAction F} (h : s.Counted N)
    (hs : s.step N a = some s') : s'.Counted N := by
  obtain ⟨rs, hrs, hlive⟩ := h
  cases a with
  | start n =>
    simp only [LogHistory.step] at hs
    split at hs
    · cases hs
    · obtain ⟨r, -, rfl⟩ := Option.map_eq_some_iff.1 hs
      refine ⟨rs, hrs, fun pm hpm => ?_⟩
      cases hpm
      exact ⟨rfl, (Disk.walSize_of_wal hrs).symm⟩
  | append c =>
    obtain ⟨pm, hpm, -, ⟨store, -, rfl⟩ | ⟨store, p, -, rfl⟩⟩ := append_cases hs
    · refine ⟨rs, hrs, fun pm' hpm' => ?_⟩
      cases hpm'
      exact hlive pm hpm
    · obtain ⟨hN, hlen⟩ := hlive pm hpm
      refine ⟨rs ++ [p], ?_, fun pm' hpm' => ?_⟩
      · rw [walText_concat, ← hrs]
        rfl
      · cases hpm'
        refine ⟨hN, ?_⟩
        rw [List.length_append, hlen]
        rfl
  | snapshot =>
    obtain ⟨pm, hpm, rfl⟩ := Option.map_eq_some_iff.1 hs
    refine ⟨[], rfl, fun pm' hpm' => ?_⟩
    cases hpm'
    exact ⟨(hlive pm hpm).1, rfl⟩
  | close =>
    obtain ⟨pm, hpm, hs⟩ := Option.bind_eq_some_iff.1 hs
    split at hs
    · cases hs
    · cases hs
      exact ⟨rs, hrs, fun _ h => by cases h⟩
  | crash =>
    obtain ⟨pm, hpm, rfl⟩ := Option.map_eq_some_iff.1 hs
    exact ⟨rs, hrs, fun _ h => by cases h⟩

theorem walSize_step_iff (hN : 0 < N) {s s' : LogHistory F} {a : LogAction F} (h : s.Counted N)
    (hle : s.disk.walSize ≤ N) (hs : s.step N a = some s') :
    s'.disk.walSize ≤ N ↔ s.Fits N a := by
  cases a with
  | append c =>
    obtain ⟨pm, hpm, hdue, hcases⟩ := append_cases hs
    obtain ⟨rs, hrs, hlive⟩ := h
    obtain ⟨hpmN, hlen⟩ := hlive pm hpm
    rcases hcases with ⟨store, hc, rfl⟩ | ⟨store, p, hc, rfl⟩
    · refine iff_of_true hle (fun pm' hpm' hne => ?_)
      rw [hpm, Option.some_inj] at hpm'
      rw [← hpm', hc] at hne
      exact absurd rfl hne
    · have hroom : pm.sinceSnapshot < N := by
        rw [PersistenceManager.due, hpmN] at hdue
        simp only [ne_eq, decide_not, Bool.and_eq_false_imp, Bool.not_eq_true',
          decide_eq_false_iff_not, not_le] at hdue
        by_cases hzero : pm.sinceSnapshot = 0
        · omega
        · exact hdue hzero
      have hwal : (s.disk.appendLine p).wal = walText (rs ++ [p]) := by
        rw [walText_concat, ← hrs]
        rfl
      have hsize := Disk.walSize_of_wal hwal
      rw [List.length_append, List.length_singleton, hlen] at hsize
      have hfits : s.Fits N (.append c) ↔
          s.found = 0 ∨ s.found + pm.sinceSnapshot < N := by
        constructor
        · intro h
          apply h pm hpm
          rw [hc]
          exact List.cons_ne_nil p []
        · intro h pm' hpm' _
          rw [hpm, Option.some_inj] at hpm'
          rw [← hpm']
          exact h
      rw [hfits]
      dsimp only
      omega
  | start n =>
    refine iff_of_true ?_ trivial
    simp only [LogHistory.step] at hs
    split at hs
    · cases hs
    · obtain ⟨r, -, rfl⟩ := Option.map_eq_some_iff.1 hs
      exact hle
  | snapshot =>
    refine iff_of_true ?_ trivial
    obtain ⟨pm, -, rfl⟩ := Option.map_eq_some_iff.1 hs
    exact Nat.zero_le N
  | close =>
    refine iff_of_true ?_ trivial
    obtain ⟨pm, -, hs⟩ := Option.bind_eq_some_iff.1 hs
    split at hs
    · cases hs
    · cases hs
      exact hle
  | crash =>
    refine iff_of_true ?_ trivial
    obtain ⟨pm, -, rfl⟩ := Option.map_eq_some_iff.1 hs
    exact hle

/-- The log never has more than `snapshot_every` records exactly when every session that finds
records commits no more entries than there is room for. -/
theorem walSize_le_iff_fits (hN : 0 < N) {s : LogHistory F}
    (hrun : Run (LogHistory.step N) .init past s) :
    (∀ t, Visited past s t → t.disk.walSize ≤ N) ↔ ∀ p ∈ past, p.1.Fits N p.2 :=
  hrun.visited_iff (I := fun s => s.disk.walSize ≤ N) (J := fun s => s.Counted N)
    (Nat.zero_le N) (.init N) (fun _ _ _ h hs => h.step hs)
    (fun _ _ _ h hle hs => walSize_step_iff hN h hle hs)

/-- A session that commits two entries, and one that finds nothing in the log. -/
def fullSession : List (LogAction ℕ) :=
  [.start [110], .append (.set [97] (.int 1) 10), .append (.set [98] (.int 2) 20), .snapshot,
    .close, .start [110], .append (.set [99] (.int 3) 30), .crash]

theorem walSize_le_fullSession : ∃ past, ∃ s : LogHistory ℕ,
    Run (LogHistory.step 2) .init past s ∧ s.disk.walSize = 1 ∧
    ((∀ t, Visited past s t → t.disk.walSize ≤ 2) ↔ ∀ p ∈ past, p.1.Fits 2 p.2) := by
  obtain ⟨past, s, hrun, hsize⟩ := exists_run_of_exec (LogHistory.step 2) .init fullSession
    (fun s : LogHistory ℕ => s.disk.walSize) 1 (by decide)
  exact ⟨past, s, hrun, hsize, walSize_le_iff_fits (by decide) hrun⟩

/-- Three sessions with one commit each, where a snapshot is due after two. -/
def shortSessions : List (LogAction ℕ) :=
  [.start [110], .append (.set [97] (.int 1) 10), .close, .start [110],
    .append (.set [98] (.int 2) 20), .crash, .start [110], .append (.set [99] (.int 3) 30)]

theorem short_sessions_fill_log : ¬ ∀ N, 0 < N → ∀ past (s : LogHistory ℕ),
    Run (LogHistory.step N) .init past s → ∀ t, Visited past s t → t.disk.walSize ≤ N := by
  intro hclaim
  obtain ⟨past, s, hrun, hsize⟩ := exists_run_of_exec (LogHistory.step 2) .init shortSessions
    (fun s : LogHistory ℕ => s.disk.walSize) 3 (by decide)
  have hle := hclaim 2 (by decide) past s hrun s (.inl rfl)
  omega

end LogHistory

end Suprime
