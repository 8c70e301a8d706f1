import Mathlib.Order.Bounds.Basic
import Mathlib.Tactic.Linarith
import Suprime.Run
import Suprime.Peers

namespace Suprime
set_option autoImplicit true

/-- A table with the latest reading of its clock. The last field is history: when each peer was
inserted, had its heartbeat increased or was refreshed. -/
structure PeerWatch where
  table : PeerTable
  now : ℚ
  news : List (String × ℚ)

/-- The calls, with the time that passes before each reading of the clock. An entry of a digest is
`none` when its conversion raises. -/
inductive WatchAction
  | merge (elapsed : ℚ≥0) (e : PeerRecord)
  | applyDigest (elapsed : ℕ → ℚ≥0) (entries : List (Option PeerRecord))
  | refresh (elapsed : ℚ≥0) (nodeId : String)
  | evict (nodeId : String)
  | tick (elapsed : ℚ≥0)

/-- A peer is inserted, or its heartbeat strictly increases. -/
def PeerTable.Advances (t t' : PeerTable) (k : String) : Prop :=
  match t.get k, t'.get k with
  | _, none => False
  | none, some _ => True
  | some p, some p' => p.heartbeat < p'.heartbeat

instance (t t' : PeerTable) (k : String) : Decidable (t.Advances t' k) := by
  unfold PeerTable.Advances
  exact match t.get k, t'.get k with
    | _, none => isFalse id
    | none, some _ => isTrue trivial
    | some _, some _ => inferInstanceAs (Decidable (_ < _))

namespace PeerWatch

def init (selfId : String) (suspectAfter deadAfter startedAt : ℚ) : PeerWatch :=
  ⟨.init selfId suspectAfter deadAfter, startedAt, []⟩

def merge (w : PeerWatch) (elapsed : ℚ≥0) (e : PeerRecord) : PeerWatch × Bool :=
  let clock := w.now + elapsed
  let r := w.table.merge clock e
  (⟨r.1, clock, if w.table.Advances r.1 e.nodeId then w.news ++ [(e.nodeId, clock)] else w.news⟩,
    r.2)

/-- `apply_digest`, which returns nothing when an entry raises. -/
def applyDigest (w : PeerWatch) (elapsed : ℕ → ℚ≥0) (changed : Bool) :
    List (Option PeerRecord) → PeerWatch × Option Bool
  | [] => (w, some changed)
  | none :: _ => (w, none)
  | some e :: es =>
    let r := w.merge (elapsed 0) e
    r.1.applyDigest (fun i => elapsed (i + 1)) (changed || r.2) es

def refresh (w : PeerWatch) (elapsed : ℚ≥0) (nodeId : String) : PeerWatch × Bool :=
  let clock := w.now + elapsed
  let r := w.table.refresh clock nodeId
  (⟨r.1, clock, if r.2 then w.news ++ [(nodeId, clock)] else w.news⟩, r.2)

def evict (w : PeerWatch) (nodeId : String) : PeerWatch :=
  { w with table := w.table.evict nodeId }

def tick (w : PeerWatch) (elapsed : ℚ≥0) : PeerWatch :=
  { w with table := w.table.tick (w.now + elapsed), now := w.now + elapsed }

def step (w : PeerWatch) : WatchAction → Option PeerWatch
  | .merge elapsed e => some (w.merge elapsed e).1
  | .applyDigest elapsed entries => some (w.applyDigest elapsed false entries).1
  | .refresh elapsed nodeId => some (w.refresh elapsed nodeId).1
  | .evict nodeId => some (w.evict nodeId)
  | .tick elapsed => some (w.tick elapsed)

/-- What the table says agrees with the news: the update of a peer is its latest news, and whoever
is labelled suspect has been silent for long enough. -/
structure Exact (selfId : String) (suspectAfter deadAfter : ℚ) (w : PeerWatch) : Prop where
  self_eq : w.table.selfId = selfId
  suspect_eq : w.table.suspectAfter = suspectAfter
  dead_eq : w.table.deadAfter = deadAfter
  owner : w.table.get selfId = none
  latest : ∀ k p, w.table.get k = some p → IsGreatest {t | (k, t) ∈ w.news} p.lastUpdate
  heard : ∀ x ∈ w.news, x.2 ≤ w.now
  label : ∀ k p, w.table.get k = some p →
    p.state = .ALIVE ∨ p.state = .SUSPECT ∧ suspectAfter ≤ w.now - p.lastUpdate

theorem advances_merge (t : PeerTable) (clock : ℚ) (e : PeerRecord) :
    t.Advances (t.merge clock e).1 e.nodeId ↔ t.Accepts e := by
  unfold PeerTable.Advances
  rw [PeerTable.get_merge]
  by_cases hacc : t.Accepts e
  · rw [if_pos ⟨rfl, hacc⟩]
    cases hk : t.get e.nodeId with
    | none => exact iff_of_true trivial hacc
    | some p => exact iff_of_true (hacc.2 p hk) hacc
  · rw [if_neg (fun h => hacc h.2)]
    cases hk : t.get e.nodeId with
    | none => exact iff_of_false id hacc
    | some p => exact iff_of_false (lt_irrefl _) hacc

theorem Exact.init (selfId : String) (suspectAfter deadAfter startedAt : ℚ) :
    Exact selfId suspectAfter deadAfter
      (PeerWatch.init selfId suspectAfter deadAfter startedAt) where
  self_eq := rfl
  suspect_eq := rfl
  dead_eq := rfl
  owner := rfl
  latest k p h := by cases h
  heard x h := by cases h
  label k p h := by cases h

theorem Exact.later {w : PeerWatch} (h : Exact selfId suspectAfter deadAfter w)
    (hc : w.now ≤ clock) : Exact selfId suspectAfter deadAfter { w with now := clock } where
  self_eq := h.self_eq
  suspect_eq := h.suspect_eq
  dead_eq := h.dead_eq
  owner := h.owner
  latest := h.latest
  heard x hx := (h.heard x hx).trans hc
  label k p hk := by
    cases h.label k p hk with
    | inl halive => exact .inl halive
    | inr hsuspect =>
      obtain ⟨hstate, hsilent⟩ := hsuspect
      refine .inr ⟨hstate, ?_⟩
      dsimp only
      linarith

theorem Exact.stamp {w : PeerWatch} (h : Exact selfId suspectAfter deadAfter w)
    (hc : w.now ≤ clock) (hp : p.nodeId ≠ selfId) (hstate : p.state = .ALIVE)
    (hu : p.lastUpdate = clock) :
    Exact selfId suspectAfter deadAfter
      ⟨w.table.put p, clock, w.news ++ [(p.nodeId, clock)]⟩ where
  self_eq := h.self_eq
  suspect_eq := h.suspect_eq
  dead_eq := h.dead_eq
  owner := by
    rw [PeerTable.get_put, if_neg hp.symm]
    exact h.owner
  latest k q hk := by
    rw [PeerTable.get_put] at hk
    by_cases hkp : k = p.nodeId
    · rw [if_pos hkp] at hk
      cases hk
      rw [hkp, hu]
      refine ⟨List.mem_append_right _ List.mem_cons_self, ?_⟩
      intro t ht
      rcases List.mem_append.1 ht with ht | ht
      · exact (h.heard _ ht).trans hc
      · cases List.mem_singleton.1 ht
        exact le_rfl
    · rw [if_neg hkp] at hk
      have hsame : {t | (k, t) ∈ w.news ++ [(p.nodeId, clock)]} = {t | (k, t) ∈ w.news} := by
        ext t
        simp [hkp]
      rw [hsame]
      exact h.latest k q hk
  heard x hx := by
    rcases List.mem_append.1 hx with hx | hx
    · exact (h.heard x hx).trans hc
    · rw [List.mem_singleton.1 hx]
  label k q hk := by
    rw [PeerTable.get_put] at hk
    by_cases hkp : k = p.nodeId
    · rw [if_pos hkp] at hk
      cases hk
      exact .inl hstate
    · rw [if_neg hkp] at hk
      exact (h.later hc).label k q hk

theorem Exact.merge {w : PeerWatch} (h : Exact selfId suspectAfter deadAfter w) (elapsed : ℚ≥0)
    (e : PeerRecord) : Exact selfId suspectAfter deadAfter (w.merge elapsed e).1 := by
  have hc := le_elapsed w.now elapsed
  unfold PeerWatch.merge
  dsimp only
  by_cases hacc : w.table.Accepts e
  · rw [if_pos ((advances_merge _ _ _).2 hacc), PeerTable.merge_of_accepts _ hacc]
    have hself : e.nodeId ≠ selfId := h.self_eq ▸ hacc.1
    exact h.stamp (p := ⟨e.nodeId, e.address, e.heartbeat, .ALIVE, _⟩) hc hself rfl rfl
  · rw [if_neg (fun ha => hacc ((advances_merge _ _ _).1 ha)),
      PeerTable.merge_of_not_accepts _ hacc]
    exact h.later hc

theorem Exact.applyDigest {w : PeerWatch} (h : Exact selfId suspectAfter deadAfter w)
    (elapsed : ℕ → ℚ≥0) (changed : Bool) (entries : List (Option PeerRecord)) :
    Exact selfId suspectAfter deadAfter (w.applyDigest elapsed changed entries).1 := by
  induction entries generalizing w elapsed changed with
  | nil => exact h
  | cons entry entries ih =>
    cases entry with
    | none => exact h
    | some e => exact ih (h.merge (elapsed 0) e) _ _

theorem Exact.refresh {w : PeerWatch} (h : Exact selfId suspectAfter deadAfter w)
    (elapsed : ℚ≥0) (nodeId : String) :
    Exact selfId suspectAfter deadAfter (w.refresh elapsed nodeId).1 := by
  have hc := le_elapsed w.now elapsed
  unfold PeerWatch.refresh PeerTable.refresh
  cases hk : w.table.get nodeId with
  | none => exact h.later hc
  | some p =>
    have hid := w.table.keyed _ _ hk
    have hself : p.nodeId ≠ selfId := by
      intro he
      rw [← hid, he, h.owner] at hk
      cases hk
    dsimp only
    rw [if_pos rfl, ← hid]
    exact h.stamp (p := { p with lastUpdate := _, state := .ALIVE }) hc hself rfl rfl

theorem Exact.evict {w : PeerWatch} (h : Exact selfId suspectAfter deadAfter w)
    (nodeId : String) : Exact selfId suspectAfter deadAfter (w.evict nodeId) := by
  have hget : ∀ {k p}, (w.table.evict nodeId).get k = some p → w.table.get k = some p := by
    intro k p hk
    rw [PeerTable.get_evict] at hk
    split at hk
    · cases hk
    · exact hk
  constructor
  · exact h.self_eq
  · exact h.suspect_eq
  · exact h.dead_eq
  · have howner := (w.table.evolves_evict nodeId).owner
    rw [h.self_eq] at howner
    exact howner h.owner
  · exact fun k p hk => h.latest k p (hget hk)
  · exact h.heard
  · exact fun k p hk => h.label k p (hget hk)

theorem Exact.get_tick {w : PeerWatch} (h : Exact selfId suspectAfter deadAfter w)
    (elapsed : ℚ≥0) (hk : w.table.get k = some p) :
    (w.tick elapsed).table.get k =
      if (w.tick elapsed).now - p.lastUpdate < deadAfter then
        some { p with
          state := if (w.tick elapsed).now - p.lastUpdate < suspectAfter then .ALIVE
            else .SUSPECT }
      else none := by
  have hc : w.now ≤ (w.tick elapsed).now := le_elapsed _ _
  have hage : (w.tick elapsed).table.get k = w.table.age (w.tick elapsed).now p := by
    change (w.table.tick (w.tick elapsed).now).get k = _
    rw [PeerTable.get_tick, hk, Option.bind_some]
  rw [hage, PeerTable.age, h.dead_eq, h.suspect_eq]
  by_cases hdead : (w.tick elapsed).now - p.lastUpdate < deadAfter
  · rw [if_neg (not_le.2 hdead), if_pos hdead]
    by_cases hsuspect : (w.tick elapsed).now - p.lastUpdate < suspectAfter
    · rw [if_neg (not_le.2 hsuspect), if_pos hsuspect]
      -- a suspect would have been silent for too long already when it was labelled
      have halive : p.state = .ALIVE := by
        cases h.label k p hk with
        | inl halive => exact halive
        | inr hbefore => linarith [hbefore.2]
      rw [← halive]
    · rw [if_pos (not_lt.1 hsuspect), if_neg hsuspect]
  · rw [if_pos (not_lt.1 hdead), if_neg hdead]

theorem Exact.tick {w : PeerWatch} (h : Exact selfId suspectAfter deadAfter w)
    (elapsed : ℚ≥0) : Exact selfId suspectAfter deadAfter (w.tick elapsed) := by
  have hc := le_elapsed w.now elapsed
  obtain ⟨hself, hdead, hsuspect⟩ := w.table.tick_fields (w.now + elapsed)
  have hget : ∀ {k q}, (w.tick elapsed).table.get k = some q → ∃ p, w.table.get k = some p ∧
      q.lastUpdate = p.lastUpdate ∧ (q.state = .ALIVE ∨
        q.state = .SUSPECT ∧ suspectAfter ≤ (w.tick elapsed).now - p.lastUpdate) := by
    intro k q hk
    obtain ⟨p, hp, hu, _⟩ := PeerTable.of_get_tick hk
    refine ⟨p, hp, hu.symm, ?_⟩
    rw [h.get_tick elapsed hp] at hk
    split at hk
    · cases hk
      dsimp only
      split
      · exact .inl rfl
      · rename_i hsilent
        exact .inr ⟨rfl, not_lt.1 hsilent⟩
    · cases hk
  constructor
  · exact hself.trans h.self_eq
  · exact hsuspect.trans h.suspect_eq
  · exact hdead.trans h.dead_eq
  · have howner := (w.table.evolves_tick (w.now + elapsed)).owner
    rw [h.self_eq] at howner
    exact howner h.owner
  · intro k q hk
    obtain ⟨p, hp, hu, _⟩ := hget hk
    rw [hu]
    exact h.latest k p hp
  · exact fun x hx => (h.heard x hx).trans hc
  · intro k q hk
    obtain ⟨p, hp, hu, hlabel⟩ := hget hk
    rw [hu]
    exact hlabel

theorem Exact.step {w : PeerWatch} (h : Exact selfId suspectAfter deadAfter w)
    (hs : w.step a = some w') : Exact selfId suspectAfter deadAfter w' := by
  cases a with
  | merge elapsed e =>
    cases hs
    exact h.merge elapsed e
  | applyDigest elapsed entries =>
    cases hs
    exact h.applyDigest elapsed false entries
  | refresh elapsed nodeId =>
    cases hs
    exact h.refresh elapsed nodeId
  | evict nodeId =>
    cases hs
    exact h.evict nodeId
  | tick elapsed =>
    cases hs
    exact h.tick elapsed

theorem Exact.of_run {w : PeerWatch}
    (h : Run PeerWatch.step (PeerWatch.init selfId suspectAfter deadAfter startedAt) past w) :
    Exact selfId suspectAfter deadAfter w :=
  h.invariant (C := fun _ _ => True) (fun _ _ => trivial) (.init _ _ _ _)
    (fun _ _ _ hw _ hstep => hw.step hstep)

theorem gains_applyDigest (w : PeerWatch) (elapsed : ℕ → ℚ≥0) (changed : Bool)
    (entries : List (Option PeerRecord)) :
    w.table.Gains (w.applyDigest elapsed changed entries).1.table := by
  induction entries generalizing w elapsed changed with
  | nil => exact .refl _
  | cons entry entries ih =>
    cases entry with
    | none => exact .refl _
    | some e =>
      have hmerge := w.table.gains_merge (w.now + elapsed 0) e
      exact hmerge.trans (ih (w.merge (elapsed 0) e).1 _ _)

theorem climbs_step {w : PeerWatch} (hs : w.step a = some w') :
    w.table.Climbs w'.table := by
  cases a with
  | merge elapsed e =>
    cases hs
    exact (w.table.gains_merge _ e).evolves.climbs
  | applyDigest elapsed entries =>
    cases hs
    exact (w.gains_applyDigest elapsed false entries).evolves.climbs
  | refresh elapsed nodeId =>
    cases hs
    exact (w.table.gains_refresh _ nodeId).evolves.climbs
  | evict nodeId =>
    cases hs
    exact (w.table.evolves_evict nodeId).climbs
  | tick elapsed =>
    cases hs
    exact (w.table.evolves_tick _).climbs

/-- After a tick the table holds exactly the peers it held whose latest news is younger than
`dead_after`, labelled by their silence. It never holds its owner, and the heartbeat of a peer
does not decrease while it stays. -/
theorem classification_exact
    (h : Run step (PeerWatch.init selfId suspectAfter deadAfter startedAt) past w) :
    (∀ elapsed w', w.step (.tick elapsed) = some w' → ∀ k,
      (w.table.get k = none → w'.table.get k = none) ∧
      ∀ p, w.table.get k = some p → ∃ latest, IsGreatest {t | (k, t) ∈ w'.news} latest ∧
        w'.table.get k =
          if w'.now - latest < deadAfter then
            some { p with
              state := if w'.now - latest < suspectAfter then .ALIVE else .SUSPECT }
          else none) ∧
    w.table.get selfId = none ∧
    ∀ past' u, Run step w past' u → ∀ k, (∀ v, Visited past' u v → (v.table.get k).isSome) →
      ∀ p q, w.table.get k = some p → u.table.get k = some q → p.heartbeat ≤ q.heartbeat := by
  have hexact := Exact.of_run h
  refine ⟨?_, hexact.owner, ?_⟩
  · intro elapsed w' hs k
    cases hs
    constructor
    · intro hk
      simp [PeerWatch.tick, PeerTable.get_tick, hk]
    · intro p hk
      exact ⟨p.lastUpdate, hexact.latest k p hk, hexact.get_tick elapsed hk⟩
  · intro past' u hr k hstays p q hp hq
    exact hr.heartbeat_le table (fun _ _ _ => climbs_step) hstays hp hq

/-- One peer is merged, refreshed 2 seconds later and ticked, another one stays away. -/
theorem classification_exact_of_refresh : ∃ past w,
    Run step (PeerWatch.init "self" 3 6 0) past w ∧
    ((∀ elapsed w', w.step (.tick elapsed) = some w' → ∀ k,
      (w.table.get k = none → w'.table.get k = none) ∧
      ∀ p, w.table.get k = some p → ∃ latest, IsGreatest {t | (k, t) ∈ w'.news} latest ∧
        w'.table.get k =
          if w'.now - latest < 6 then
            some { p with state := if w'.now - latest < 3 then .ALIVE else .SUSPECT }
          else none) ∧
    w.table.get "self" = none ∧
    ∀ past' u, Run step w past' u → ∀ k, (∀ v, Visited past' u v → (v.table.get k).isSome) →
      ∀ p q, w.table.get k = some p → u.table.get k = some q → p.heartbeat ≤ q.heartbeat) ∧
    w.news = [("p1", 0), ("p2", 1), ("p1", 3)] ∧
    w.table.get "p1" = some ⟨"p1", "addr", 1, .ALIVE, 3⟩ ∧
    w.table.get "p2" = some ⟨"p2", "addr2", 5, .SUSPECT, 1⟩ := by
  obtain ⟨past, w, hr, he⟩ := exists_run_of_exec step (PeerWatch.init "self" 3 6 0)
    [.merge 0 ⟨"p1", "addr", 1⟩,
      .applyDigest (fun _ => 1) [some ⟨"p2", "addr2", 5⟩, none, some ⟨"p3", "addr3", 1⟩],
      .refresh 2 "p1", .tick 1]
    (fun w => (w.news, w.table.get "p1", w.table.get "p2")) _ rfl
  simp only [Prod.mk.injEq] at he
  obtain ⟨hnews, hp1, hp2⟩ := he
  exact ⟨past, w, hr, classification_exact hr, hnews.trans (by decide +kernel),
    hp1.trans (by decide +kernel), hp2.trans (by decide +kernel)⟩

end PeerWatch

end Suprime
