import Suprime.PyRepr
import Suprime.Replicas

namespace Suprime
set_option autoImplicit true

namespace Replicate

/-- Objects with a digest: the local operations (`none` where they raise) and `apply_digest`, with
the object that it leaves and what it returns (`none` where it raises). -/
structure Crdt (ω σ F : Type) where
  perform : σ → ω → Option σ
  digest : σ → PyValue F
  applyDigest : σ → PyValue F → σ × Option Bool

/-- A replicator with all that its rounds read. A callback tells whether a call of it returns. -/
structure CRDTReplicator (κ σ : Type) where
  fanout : ℕ
  crdts : Dict κ σ
  onChange : Dict κ (σ → Bool)
  lastSent : Dict κ Text
  fullSyncEvery : ℕ
  ticks : ℕ
  syncsSent : ℕ
  syncsReceived : ℕ

/-- What `_on_sync` leaves: the replicator, the calls of callbacks, and whether it raised. -/
structure SyncResult (κ σ : Type) where
  node : CRDTReplicator κ σ
  calls : List (κ × σ)
  raised : Bool

namespace CRDTReplicator

variable {ν κ ω σ F : Type} [DecidableEq κ] [FiniteFloat F] [DecidableEq F] [UnicodeData]

def init (fanout fullSyncEvery : ℕ) : CRDTReplicator κ σ :=
  ⟨fanout, .empty, .empty, .empty, fullSyncEvery, 0, 0, 0⟩

def register (r : CRDTReplicator κ σ) (name : κ) (crdt : σ) (onChange : Option (σ → Bool)) :
    CRDTReplicator κ σ :=
  match onChange with
  | none => { r with crdts := r.crdts.set name crdt }
  | some callback =>
    { r with crdts := r.crdts.set name crdt, onChange := r.onChange.set name callback }

def get (r : CRDTReplicator κ σ) (name : κ) : Option σ := r.crdts.get name

/-- A local operation on the object of a name. -/
def performOn (X : Crdt ω σ F) (r : CRDTReplicator κ σ) (name : κ) (op : ω) :
    Option (CRDTReplicator κ σ) := do
  let crdt ← r.get name
  let crdt ← X.perform crdt op
  some { r with crdts := r.crdts.set name crdt }

/-- One turn of the loop of `_tick`: the payload and `_last_sent`. -/
def collect (X : Crdt ω σ F) (full : Bool) (acc : Dict κ (PyValue F) × Dict κ Text) (p : κ × σ) :
    Dict κ (PyValue F) × Dict κ Text :=
  if full || acc.2.get p.1 ≠ some (repr (X.digest p.2)) then
    (acc.1.set p.1 (X.digest p.2), acc.2.set p.1 (repr (X.digest p.2)))
  else acc

/-- The payload of a round and the fingerprints after it. -/
def collected (X : Crdt ω σ F) (r : CRDTReplicator κ σ) (full : Bool) :
    Dict κ (PyValue F) × Dict κ Text :=
  r.crdts.items.foldl (collect X full) (.empty, r.lastSent)

/-- `rng.sample(alive, fanout)` -/
def Samples [DecidableEq ν] (alive : List ν) (fanout : ℕ) (drawn : List ν) : Prop :=
  drawn.Nodup ∧ (∀ n ∈ drawn, n ∈ alive) ∧ drawn.length = fanout

instance [DecidableEq ν] (alive : List ν) (fanout : ℕ) (drawn : List ν) :
    Decidable (Samples alive fanout drawn) := inferInstanceAs (Decidable (_ ∧ _ ∧ _))

def targets (r : CRDTReplicator κ σ) (alive drawn : List ν) : List ν :=
  if alive.length ≤ r.fanout then alive else drawn

/-- The targets of a round and the payload that is sent to each of them; with `full_sync_every` zero
the remainder raises. -/
def tick (X : Crdt ω σ F) (r : CRDTReplicator κ σ) (alive drawn : List ν) :
    CRDTReplicator κ σ × Option (List ν × Dict κ (PyValue F)) :=
  if r.crdts.items = [] then (r, none)
  else if alive = [] then (r, none)
  else if r.fullSyncEvery = 0 then ({ r with ticks := r.ticks + 1 }, none)
  else
    let full := decide ((r.ticks + 1) % r.fullSyncEvery = 0)
    let acc := r.collected X full
    let r' := { r with ticks := r.ticks + 1, lastSent := acc.2 }
    if acc.1.items = [] then (r', none)
    else
      ({ r' with syncsSent := r.syncsSent + (r.targets alive drawn).length },
        some (r.targets alive drawn, acc.1))

/-- The loop of `_on_sync`, which ends where a digest or a callback raises. -/
def syncItems (X : Crdt ω σ F) (r : CRDTReplicator κ σ) :
    List (κ × PyValue F) → SyncResult κ σ
  | [] => ⟨r, [], false⟩
  | (name, digest) :: rest =>
    match r.get name with
    | none => r.syncItems X rest
    | some crdt =>
      let r' := { r with crdts := r.crdts.set name (X.applyDigest crdt digest).1 }
      match (X.applyDigest crdt digest).2 with
      | none => ⟨r', [], true⟩
      | some false => r'.syncItems X rest
      | some true =>
        match r.onChange.get name with
        | none => r'.syncItems X rest
        | some callback =>
          let call := (name, (X.applyDigest crdt digest).1)
          if callback call.2 then
            let result := r'.syncItems X rest
            { result with calls := call :: result.calls }
          else ⟨r', [call], true⟩

def onSync (X : Crdt ω σ F) (r : CRDTReplicator κ σ) (payload : Dict κ (PyValue F)) :
    SyncResult κ σ :=
  { r with syncsReceived := r.syncsReceived + 1 }.syncItems X payload.items

section
omit [UnicodeData]

theorem get_register (r : CRDTReplicator κ σ) (name k : κ) (crdt : σ)
    (onChange : Option (σ → Bool)) :
    (r.register name crdt onChange).get k = if k = name then some crdt else r.get k := by
  cases onChange with
  | none => exact Dict.get_set _ _ _ _
  | some callback => exact Dict.get_set _ _ _ _

theorem lastSent_register (r : CRDTReplicator κ σ) (name : κ) (crdt : σ)
    (onChange : Option (σ → Bool)) :
    (r.register name crdt onChange).lastSent = r.lastSent := by
  cases onChange <;> rfl

end

section
omit [UnicodeData] [FiniteFloat F] [DecidableEq F]

theorem performOn_spec {X : Crdt ω σ F} {r r' : CRDTReplicator κ σ}
    (h : r.performOn X name op = some r') : ∃ c c', r.get name = some c ∧
      X.perform c op = some c' ∧ r' = { r with crdts := r.crdts.set name c' } := by
  obtain ⟨c, hc, h⟩ := Option.bind_eq_some_iff.1 h
  obtain ⟨c', hc', h⟩ := Option.bind_eq_some_iff.1 h
  cases h
  exact ⟨c, c', hc, hc', rfl⟩

end

/-- The object of a name differs from the one whose digest was sent last. -/
def Dirty (X : Crdt ω σ F) (r : CRDTReplicator κ σ) (name : κ) (c : σ) : Prop :=
  r.lastSent.get name ≠ some (repr (X.digest c))

instance (X : Crdt ω σ F) (r : CRDTReplicator κ σ) (name : κ) (c : σ) :
    Decidable (r.Dirty X name c) := inferInstanceAs (Decidable (_ ≠ _))

section
omit [DecidableEq F]

theorem foldl_collect (X : Crdt ω σ F) (full : Bool) {l : List (κ × σ)}
    (hl : (l.map Prod.fst).Nodup) (acc : Dict κ (PyValue F) × Dict κ Text)
    (hacc : ∀ k ∈ l.map Prod.fst, acc.1.get k = none) (name : κ) :
    (l.foldl (collect X full) acc).1.get name = (match l.lookup name with
      | some c => if full = true ∨ acc.2.get name ≠ some (repr (X.digest c))
        then some (X.digest c) else none
      | none => acc.1.get name) ∧
    (l.foldl (collect X full) acc).2.get name = (match l.lookup name with
      | some c => some (repr (X.digest c))
      | none => acc.2.get name) := by
  induction l generalizing acc with
  | nil => exact ⟨rfl, rfl⟩
  | cons p l ih =>
    obtain ⟨m, c⟩ := p
    rw [List.map_cons, List.nodup_cons] at hl
    have hm : l.lookup m = none := lookup_eq_none_of_not_mem hl.1
    have hother : ∀ k, k ≠ m → (collect X full acc (m, c)).1.get k = acc.1.get k ∧
        (collect X full acc (m, c)).2.get k = acc.2.get k := by
      intro k hk
      unfold collect
      split
      · exact ⟨Dict.get_set_ne _ _ hk, Dict.get_set_ne _ _ hk⟩
      · exact ⟨rfl, rfl⟩
    obtain ⟨hpayload, hsent⟩ := ih hl.2 (collect X full acc (m, c)) (by
      intro k hk
      have hne : k ≠ m := fun he => hl.1 (he ▸ hk)
      rw [(hother k hne).1]
      exact hacc k (List.mem_cons_of_mem _ hk))
    rw [List.foldl_cons, hpayload, hsent]
    by_cases hk : name = m
    · subst hk
      rw [hm, List.lookup_cons_self]
      have hnone := hacc name List.mem_cons_self
      unfold collect
      by_cases hd : full = true ∨ acc.2.get name ≠ some (repr (X.digest c))
      · have hcond : (full || decide (acc.2.get name ≠ some (repr (X.digest c)))) = true := by
          rw [Bool.or_eq_true, decide_eq_true_eq]
          exact hd
        simp only [if_pos hcond, if_pos hd, Dict.get_set_self, and_self]
      · have hcond : ¬ (full || decide (acc.2.get name ≠ some (repr (X.digest c)))) = true := by
          rw [Bool.or_eq_true, decide_eq_true_eq]
          exact hd
        simp only [if_neg hcond, if_neg hd]
        refine ⟨hnone, ?_⟩
        by_contra hne
        exact hd (.inr hne)
    · rw [lookup_cons_ne hk, (hother name hk).1, (hother name hk).2]
      exact ⟨rfl, rfl⟩

theorem get_payload (X : Crdt ω σ F) (r : CRDTReplicator κ σ) (full : Bool) (name : κ) :
    (r.collected X full).1.get name = (match r.get name with
      | some c => if full = true ∨ r.Dirty X name c then some (X.digest c) else none
      | none => none) :=
  (foldl_collect X full r.crdts.nodup (.empty, r.lastSent) (fun _ _ => rfl) name).1

theorem get_sentAfter (X : Crdt ω σ F) (r : CRDTReplicator κ σ) (full : Bool) (name : κ) :
    (r.collected X full).2.get name = (match r.get name with
      | some c => some (repr (X.digest c))
      | none => r.lastSent.get name) :=
  (foldl_collect X full r.crdts.nodup (.empty, r.lastSent) (fun _ _ => rfl) name).2

end

section
omit [UnicodeData]

theorem Dict_get_eq_none {d : Dict κ α} (h : d.items = []) (k : κ) : d.get k = none := by
  rw [Dict.get, h]
  rfl

end

section
omit [DecidableEq F]

theorem tick_cases (X : Crdt ω σ F) (r : CRDTReplicator κ σ) (alive drawn : List ν) :
    (r.tick X alive drawn).1.crdts = r.crdts ∧
    ((r.tick X alive drawn).2 = none ∧ (r.tick X alive drawn).1.lastSent = r.lastSent ∨
      ∃ full, (r.tick X alive drawn).1.lastSent = (r.collected X full).2 ∧
        ((r.tick X alive drawn).2 = none ∧ (r.collected X full).1.items = [] ∨
          (r.tick X alive drawn).2 = some (r.targets alive drawn, (r.collected X full).1))) := by
  unfold tick
  split
  · exact ⟨rfl, .inl ⟨rfl, rfl⟩⟩
  · split
    · exact ⟨rfl, .inl ⟨rfl, rfl⟩⟩
    · split
      · exact ⟨rfl, .inl ⟨rfl, rfl⟩⟩
      · dsimp only
        split
        · rename_i hempty
          exact ⟨rfl, .inr ⟨_, rfl, .inl ⟨rfl, hempty⟩⟩⟩
        · exact ⟨rfl, .inr ⟨_, rfl, .inr rfl⟩⟩

/-- A round sends the digest of an object and keeps its fingerprint, or leaves the fingerprint that
was kept. -/
theorem lastSent_tick (X : Crdt ω σ F) (r : CRDTReplicator κ σ) (alive drawn : List ν) (name : κ) :
    (∃ payload c, (r.tick X alive drawn).2 = some (r.targets alive drawn, payload) ∧
      r.get name = some c ∧ payload.get name = some (X.digest c) ∧
      (r.tick X alive drawn).1.lastSent.get name = some (repr (X.digest c))) ∨
    (∀ sent, (r.tick X alive drawn).2 = some sent → sent.2.get name = none) ∧
      (r.tick X alive drawn).1.lastSent.get name = r.lastSent.get name := by
  obtain ⟨_, ⟨hnone, hsent⟩ | ⟨full, hsent, hout⟩⟩ := r.tick_cases X alive drawn
  · right
    rw [hnone, hsent]
    exact ⟨fun sent h => (by cases h), rfl⟩
  · have hpayload := r.get_payload X full name
    have hafter := r.get_sentAfter X full name
    rw [← hsent] at hafter
    cases hc : r.get name with
    | none =>
      rw [hc] at hpayload hafter
      right
      refine ⟨fun sent h => ?_, hafter⟩
      rcases hout with ⟨hnone, _⟩ | hout
      · rw [hnone] at h
        cases h
      · cases hout.symm.trans h
        exact hpayload
    | some c =>
      rw [hc] at hpayload hafter
      dsimp only at hpayload hafter
      by_cases hd : full = true ∨ r.Dirty X name c
      · rw [if_pos hd] at hpayload
        rcases hout with ⟨_, hempty⟩ | hout
        · rw [Dict_get_eq_none hempty] at hpayload
          cases hpayload
        · exact .inl ⟨_, c, hout, rfl, hpayload, hafter⟩
      · rw [if_neg hd] at hpayload
        right
        refine ⟨fun sent h => ?_, hafter.trans ?_⟩
        · rcases hout with ⟨hnone, _⟩ | hout
          · rw [hnone] at h
            cases h
          · cases hout.symm.trans h
            exact hpayload
        · by_contra hne
          exact hd (.inr fun he => hne he.symm)

end

/-- What the loop of `_on_sync` leaves: each object of the payload has taken in its digest, all of
them unless the loop was stopped. -/
structure Synced (X : Crdt ω σ F) (r : CRDTReplicator κ σ) (l : List (κ × PyValue F))
    (result : SyncResult κ σ) : Prop where
  lastSent : result.node.lastSent = r.lastSent
  get : ∀ name,
    (result.node.get name = r.get name ∧
      (result.raised = false → r.get name = none ∨ l.lookup name = none)) ∨
    ∃ c d, r.get name = some c ∧ l.lookup name = some d ∧
      result.node.get name = some (X.applyDigest c d).1

section
variable {X : Crdt ω σ F} {r r' : CRDTReplicator κ σ} {l : List (κ × PyValue F)}
  {result : SyncResult κ σ}

section
omit [UnicodeData] [FiniteFloat F] [DecidableEq F]

theorem Synced.skip (h : r.Synced X l result) (hm : r.get m = none) (d : PyValue F) :
    r.Synced X ((m, d) :: l) result where
  lastSent := h.lastSent
  get name := by
    by_cases hk : name = m
    · subst hk
      rcases h.get name with ⟨hget, _⟩ | ⟨c, _, hc, _⟩
      · exact .inl ⟨hget, fun _ => .inl hm⟩
      · rw [hm] at hc
        cases hc
    · rw [lookup_cons_ne hk]
      exact h.get name

theorem Synced.cons (h : r'.Synced X l result) (hm : l.lookup m = none) (hc : r.get m = some c)
    (hsent : r'.lastSent = r.lastSent) (hcrdts : r'.crdts = r.crdts.set m (X.applyDigest c d).1) :
    r.Synced X ((m, d) :: l) result where
  lastSent := h.lastSent.trans hsent
  get name := by
    by_cases hk : name = m
    · subst hk
      refine .inr ⟨c, d, hc, List.lookup_cons_self, ?_⟩
      rcases h.get name with ⟨hget, _⟩ | ⟨_, _, _, hd, _⟩
      · rw [hget, CRDTReplicator.get, hcrdts]
        exact Dict.get_set_self _ _ _
      · rw [hm] at hd
        cases hd
    · have hother : r'.get name = r.get name := by
        rw [CRDTReplicator.get, hcrdts]
        exact Dict.get_set_ne _ _ hk
      rw [lookup_cons_ne hk, ← hother]
      exact h.get name

theorem Synced.stop (hc : r.get m = some c) (d : PyValue F) (calls : List (κ × σ)) :
    r.Synced X ((m, d) :: l)
      ⟨{ r with crdts := r.crdts.set m (X.applyDigest c d).1 }, calls, true⟩ where
  lastSent := rfl
  get name := by
    by_cases hk : name = m
    · subst hk
      exact .inr ⟨c, d, hc, List.lookup_cons_self, Dict.get_set_self _ _ _⟩
    · exact .inl ⟨Dict.get_set_ne _ _ hk, fun h => by cases h⟩

theorem synced_syncItems (X : Crdt ω σ F) (r : CRDTReplicator κ σ) {l : List (κ × PyValue F)}
    (hl : (l.map Prod.fst).Nodup) : r.Synced X l (r.syncItems X l) := by
  induction l generalizing r with
  | nil => exact ⟨rfl, fun name => .inl ⟨rfl, fun _ => .inr rfl⟩⟩
  | cons p l ih =>
    obtain ⟨m, d⟩ := p
    rw [List.map_cons, List.nodup_cons] at hl
    have hm : l.lookup m = none := lookup_eq_none_of_not_mem hl.1
    unfold syncItems
    cases hc : r.get m with
    | none => exact (ih r hl.2).skip hc d
    | some c =>
      dsimp only
      cases (X.applyDigest c d).2 with
      | none => exact .stop hc d []
      | some changed =>
        cases changed with
        | false => exact (ih _ hl.2).cons hm hc rfl rfl
        | true =>
          dsimp only
          cases r.onChange.get m with
          | none => exact (ih _ hl.2).cons hm hc rfl rfl
          | some callback =>
            dsimp only
            split
            · have h := (ih { r with crdts := r.crdts.set m (X.applyDigest c d).1 } hl.2).cons hm hc
                rfl rfl
              exact ⟨h.lastSent, h.get⟩
            · exact .stop hc d _

theorem synced_onSync (X : Crdt ω σ F) (r : CRDTReplicator κ σ) (payload : Dict κ (PyValue F)) :
    r.Synced X payload.items (r.onSync X payload) := by
  have h := synced_syncItems X { r with syncsReceived := r.syncsReceived + 1 } payload.nodup
  exact ⟨h.lastSent, h.get⟩

end

end

end CRDTReplicator

end Replicate

end Suprime
