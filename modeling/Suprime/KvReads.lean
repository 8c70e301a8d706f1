import Mathlib.Data.Fintype.Card
import Suprime.KvQuorum

namespace Suprime
set_option autoImplicit true

variable {ν α : Type} [LinearOrder ν] [DecidableEq α]

namespace DistributedStore

section
omit [LinearOrder ν] [DecidableEq α]

theorem get_applyWrite_committed (st : NodeStore ν α) (clock : ℚ) (w : LocalWrite α)
    (key : Str) :
    (st.applyWrite clock w).1.data.get key = st.data.get key ∨
      ∃ p ∈ (st.applyWrite clock w).2, p.1 = key ∧
        (st.applyWrite clock w).1.data.get key = some p.2 := by
  by_cases hk : w.key = key
  · subst hk
    cases w with
    | set key value => exact .inr ⟨_, List.mem_cons_self, rfl, Dict.get_set_self _ _ _⟩
    | delete key =>
      cases hc : st.data.get key with
      | none =>
        left
        rw [applyWrite, delete_of_none hc]
      | some c =>
        rw [applyWrite, delete_of_some hc]
        exact .inr ⟨_, List.mem_cons_self, rfl, Dict.get_set_self _ _ _⟩
  · exact .inl (get_applyWrite_ne clock hk)

theorem get_applyWrites_committed (st : NodeStore ν α) (clock : ℕ → ℚ)
    (ws : List (LocalWrite α)) (key : Str) :
    (st.applyWrites clock ws).1.data.get key = st.data.get key ∨
      ∃ p ∈ (st.applyWrites clock ws).2, p.1 = key ∧
        (st.applyWrites clock ws).1.data.get key = some p.2 := by
  induction ws generalizing st clock with
  | nil => exact .inl rfl
  | cons w ws ih =>
    rw [applyWrites]
    dsimp only
    rcases ih (st.applyWrite (clock 0) w).1 (fun i => clock (i + 1)) with h | ⟨p, hp, hk, h⟩
    · rw [h]
      rcases st.get_applyWrite_committed (clock 0) w key with h | ⟨p, hp, hk, h⟩
      · exact .inl h
      · exact .inr ⟨p, List.mem_append_left _ hp, hk, h⟩
    · exact .inr ⟨p, List.mem_append_right _ hp, hk, h⟩

end

end DistributedStore

def KvAction.node : KvAction ν α → ν
  | .create n _ => n
  | .put n _ _ _ _ _ _ => n
  | .get n _ _ _ _ => n
  | .delete n _ _ _ => n
  | .sweepExpired n _ _ _ => n
  | .createIndex n _ _ _ _ _ => n
  | .quorumPut n _ _ _ _ _ _ _ _ => n
  | .quorumGet n _ _ _ _ => n
  | .send n _ => n
  | .finish n _ => n
  | .deliver n _ => n
  | .handle n _ => n
  | .digest n => n
  | .mergeEntry n _ _ => n
  | .applyDigest n _ => n

namespace KvSwarm

/-- The store of node `n` changes, by local writes or by merges; those of the others do not. -/
def StoreStep (s s' : KvSwarm ν α) (n : ν) : Prop :=
  (∀ m, m ≠ n → (s'.node m).store = (s.node m).store) ∧
  ((∃ ws clock, (s'.node n).store = ((s.node n).store.applyWrites clock ws).1 ∧
      s'.written = s.written ++ ((s.node n).store.applyWrites clock ws).2) ∨
    (∃ l, (s'.node n).store = ((s.node n).store.merge l).store ∧ s'.written = s.written))

section
omit [DecidableEq α]

theorem storeStep_setNode (s : KvSwarm ν α) (n : ν) (nd : KvNode ν α)
    (l : List (Str × Entry ℚ ν (KvValue α))) (h : nd.store = ((s.node n).store.merge l).store) :
    StoreStep s (s.setNode n nd) n := by
  constructor
  · intro m hm
    simp [setNode, hm]
  · refine .inr ⟨l, ?_, rfl⟩
    simpa [setNode] using h

theorem storeStep_write (s : KvSwarm ν α) (n : ν) (ws : List (LocalWrite α)) (clock : ℕ → ℚ) :
    StoreStep s (s.write n ws clock) n := by
  constructor
  · intro m hm
    simp [write, setNode, hm]
  · refine .inl ⟨ws, clock, ?_, rfl⟩
    simp [write, setNode]

theorem StoreStep.of_eq {s s' s'' : KvSwarm ν α} (h : StoreStep s s' n)
    (hn : ∀ m, (s''.node m).store = (s'.node m).store) (hw : s''.written = s'.written) :
    StoreStep s s'' n := by
  constructor
  · intro m hm
    rw [hn]
    exact h.1 m hm
  · rw [hn, hw]
    exact h.2

theorem StoreStep.of_left {s s₁ s' : KvSwarm ν α} (h : StoreStep s₁ s' n)
    (hn : ∀ m, (s₁.node m).store = (s.node m).store) (hw : s₁.written = s.written) :
    StoreStep s s' n := by
  constructor
  · intro m hm
    rw [← hn]
    exact h.1 m hm
  · rw [← hn, ← hw]
    exact h.2

theorem store_onMessage (nd : KvNode ν α) (n : ν) (j : ℕ) (kv : KVStore ν α)
    (msg : KvMessage ν α) :
    ∃ l, (nd.onMessage n j kv msg).1.store = (nd.store.merge l).store := by
  unfold KvNode.onMessage
  cases msg.body with
  | WRITE_REQ r key e => exact ⟨[(key, Entry.fromDict e)], rfl⟩
  | WRITE_RESP r =>
    dsimp only
    split <;> exact ⟨[], rfl⟩
  | READ_REQ r key => exact ⟨[], rfl⟩
  | READ_RESP r e =>
    dsimp only
    split <;> exact ⟨[], rfl⟩

theorem store_repaired (nd : KvNode ν α) (c : KvCall ν α) :
    ∃ l, nd.repaired c = (nd.store.merge l).store := by
  unfold KvNode.repaired
  split
  · exact ⟨[], rfl⟩
  · rename_i best _
    exact ⟨[(c.key, best)], rfl⟩

theorem store_call (s : KvSwarm ν α) (n : ν) (kv : KVStore ν α) (c : KvCall ν α)
    (p : Pending ν α) (m : ν) : ((s.call n kv c p).node m).store = (s.node m).store := by
  by_cases hm : m = n
  · subst hm
    simp [call, setNode, KvNode.setPending, KvNode.setKv]
  · simp [call, setNode, hm]

theorem storeStep_createIndex (s : KvSwarm ν α) (n : ν) (j : ℕ) (kv : KVStore ν α)
    (ws : List (LocalWrite α)) (clock : ℕ → ℚ) :
    StoreStep s ((s.setNode n ((s.node n).setKv j kv)).write n ws clock) n := by
  refine (storeStep_write _ n _ clock).of_left ?_ rfl
  intro m
  by_cases hm : m = n
  · subst hm
    simp [setNode, KvNode.setKv]
  · simp [setNode, hm]

theorem storeStep_finish (s : KvSwarm ν α) (n : ν) (i : ℕ) (c : KvCall ν α) :
    StoreStep s (s.finish n i c) n := by
  unfold finish
  dsimp only
  cases c.wrote with
  | some e =>
    have hst := storeStep_setNode s n ((s.node n).forget i c) [] rfl
    exact hst.of_eq (fun _ => rfl) rfl
  | none =>
    obtain ⟨l, hl⟩ := store_repaired (s.node n) c
    exact storeStep_setNode s n _ l hl

theorem storeStep_handled (s : KvSwarm ν α) (n : ν) (t i j : ℕ) (kv : KVStore ν α)
    (msg : KvMessage ν α) : StoreStep s (s.handled n t i j kv msg) n := by
  obtain ⟨l, hl⟩ := store_onMessage (s.node n) n j kv msg
  have hst := storeStep_setNode s n { ((s.node n).onMessage n j kv msg).1 with
    inbox := ((s.node n).onMessage n j kv msg).1.inbox.set t (i, j + 1) } l hl
  exact hst.of_eq (fun _ => rfl) rfl

end

theorem storeStep_node {s s' : KvSwarm ν α} (h : s.step a = some s') :
    StoreStep s s' a.node := by
  cases a with
  | create n nspace =>
    cases h
    exact storeStep_setNode s n _ [] rfl
  | put n j key value ttl now clock =>
    obtain ⟨kv, _, h⟩ := Option.bind_eq_some_iff.1 h
    cases h
    exact storeStep_write s n _ clock
  | get n j key now clock =>
    obtain ⟨kv, _, h⟩ := Option.bind_eq_some_iff.1 h
    cases h
    exact storeStep_write s n _ clock
  | delete n j key clock =>
    obtain ⟨kv, _, h⟩ := Option.bind_eq_some_iff.1 h
    cases h
    exact storeStep_write s n _ clock
  | sweepExpired n j now clock =>
    obtain ⟨kv, _, h⟩ := Option.bind_eq_some_iff.1 h
    cases h
    exact storeStep_write s n _ clock
  | createIndex n j name extractor now clock =>
    obtain ⟨kv, _, h⟩ := Option.bind_eq_some_iff.1 h
    cases h
    exact storeStep_createIndex s n j _ _ clock
  | quorumPut n j key value w ttl peers now clock =>
    obtain ⟨kv, _, h⟩ := Option.bind_eq_some_iff.1 h
    split at h
    · cases h
      exact (storeStep_write s n _ clock).of_eq (store_call _ n kv _ _) rfl
    · cases h
  | quorumGet n j key r peers =>
    obtain ⟨kv, _, h⟩ := Option.bind_eq_some_iff.1 h
    split at h
    · cases h
      exact storeStep_setNode s n _ [] rfl
    · cases h
  | send n i =>
    obtain ⟨c, _, h⟩ := Option.bind_eq_some_iff.1 h
    split at h
    · cases h
    · rename_i m ms _
      cases h
      have hst := storeStep_setNode s n
        { s.node n with calls := (s.node n).calls.set i { c with targets := ms } } [] rfl
      exact hst.of_eq (fun _ => rfl) rfl
  | finish n i =>
    obtain ⟨c, _, h⟩ := Option.bind_eq_some_iff.1 h
    split at h
    · cases h
      exact storeStep_finish s n i c
    · cases h
  | deliver n i =>
    obtain ⟨msg, _, h⟩ := Option.bind_eq_some_iff.1 h
    split at h
    · split at h
      · cases h
        exact ⟨fun _ _ => rfl, .inr ⟨[], rfl, rfl⟩⟩
      · cases h
        have hst := storeStep_setNode s n { s.node n with
          seen := (s.node n).remember seenCap i, inbox := (s.node n).inbox ++ [(i, 0)] } [] rfl
        exact hst.of_eq (fun _ => rfl) rfl
    · cases h
  | handle n t =>
    obtain ⟨⟨i, j⟩, _, h⟩ := Option.bind_eq_some_iff.1 h
    obtain ⟨msg, _, h⟩ := Option.bind_eq_some_iff.1 h
    obtain ⟨kv, _, h⟩ := Option.bind_eq_some_iff.1 h
    cases h
    exact storeStep_handled s n t i j kv msg
  | digest n =>
    cases h
    exact ⟨fun _ _ => rfl, .inr ⟨[], rfl, rfl⟩⟩
  | mergeEntry n i key =>
    obtain ⟨d, _, h⟩ := Option.bind_eq_some_iff.1 h
    obtain ⟨x, _, h⟩ := Option.bind_eq_some_iff.1 h
    cases h
    exact storeStep_setNode s n _ [(key, Entry.fromDict x)] rfl
  | applyDigest n i =>
    obtain ⟨d, _, h⟩ := Option.bind_eq_some_iff.1 h
    cases h
    exact storeStep_setNode s n _ (StoreSwarm.pairsOf d) rfl

theorem storeStep_of_step {s s' : KvSwarm ν α} (h : s.step a = some s') :
    ∃ n, StoreStep s s' n :=
  ⟨_, storeStep_node h⟩

/-- The step makes no local write to `key`. -/
def Spares (key : Str) (s : KvSwarm ν α) (a : KvAction ν α) : Prop :=
  ∀ s', s.step a = some s' → ∀ p ∈ s'.written.drop s.written.length, p.1 ≠ key

theorem written_step {s s' : KvSwarm ν α} (h : s.step a = some s') :
    ∃ l, s'.written = s.written ++ l := by
  obtain ⟨n, _, ⟨ws, clock, _, hw⟩ | ⟨l, _, hw⟩⟩ := storeStep_of_step h
  · exact ⟨_, hw⟩
  · exact ⟨[], by rw [hw, List.append_nil]⟩

theorem written_run {s s' : KvSwarm ν α} (h : Run KvSwarm.step s past s') :
    ∃ l, s'.written = s.written ++ l := by
  induction h with
  | start => exact ⟨[], (List.append_nil _).symm⟩
  | next _ hs ih =>
    obtain ⟨l, hl⟩ := ih
    obtain ⟨l', hl'⟩ := written_step hs
    exact ⟨l ++ l', by rw [hl', hl, List.append_assoc]⟩

theorem spares_of_run {s s' : KvSwarm ν α} (h : Run KvSwarm.step s past s')
    (hw : ∀ p ∈ s'.written.drop s.written.length, p.1 ≠ key) :
    ∀ x ∈ past, Spares key x.1 x.2 := by
  induction h with
  | start => intro x hx; cases hx
  | @next past t a t' hr hs ih =>
    obtain ⟨l, hl⟩ := written_run hr
    obtain ⟨l', hl'⟩ := written_step hs
    rw [hl', hl, List.append_assoc, List.drop_left] at hw
    intro x hx
    rcases List.mem_cons.1 hx with rfl | hx
    · intro t'' ht''
      rw [hs] at ht''
      cases ht''
      rw [hl', List.drop_left]
      exact fun p hp => hw p (List.mem_append_right _ hp)
    · apply ih ?_ x hx
      rw [hl, List.drop_left]
      exact fun p hp => hw p (List.mem_append_left _ hp)

/-- The step writes no entry older than `v` for `key` at node `m` while `m` holds one as new. -/
def Upholds (m : ν) (key : Str) (v : Version ℚ ν) (s : KvSwarm ν α) (a : KvAction ν α) : Prop :=
  a.node = m → s.Holds m key v → ∀ s', s.step a = some s' →
    ∀ p ∈ s'.written.drop s.written.length, p.1 = key → v ≤ p.2.version

theorem Spares.upholds {s : KvSwarm ν α} (h : Spares key s a) (m : ν) (v : Version ℚ ν) :
    Upholds m key v s a :=
  fun _ _ s' hs p hp hk => absurd hk (h s' hs p hp)

theorem Holds.keep {s s' : KvSwarm ν α} (h : s.Holds m key v) (hs : s.step a = some s')
    (hkeep : Upholds m key v s a) : s'.Holds m key v := by
  obtain ⟨e, he, hle⟩ := id h
  obtain ⟨hother, hstep⟩ := storeStep_node hs
  by_cases hm : a.node = m
  · have hnew := hkeep hm h s' hs
    rw [hm] at hstep
    rcases hstep with ⟨ws, clock, hst, hw⟩ | ⟨l, hst, _⟩
    · rw [hw, List.drop_left] at hnew
      rcases (s.node m).store.get_applyWrites_committed clock ws key with hget | ⟨p, hp, hk, hget⟩
      · exact ⟨e, by rw [hst, hget]; exact he, hle⟩
      · exact ⟨p.2, by rw [hst]; exact hget, hnew p hp hk⟩
    · obtain ⟨e', he', hle'⟩ := DistributedStore.get_merge_mono he l
      exact ⟨e', by rw [hst]; exact he', hle.trans hle'⟩
  · exact ⟨e, by rw [hother m (Ne.symm hm)]; exact he, hle⟩

theorem Holds.step {s s' : KvSwarm ν α} (h : s.Holds m key v) (hs : s.step a = some s')
    (hsp : Spares key s a) : s'.Holds m key v :=
  h.keep hs (hsp.upholds m v)

end KvSwarm

namespace KvNode

section
omit [DecidableEq α]

theorem mem_onMessage {nd : KvNode ν α} (h : m ∈ (nd.onMessage n j kv msg).2) :
    m.src = n ∧
      ((∃ q key e, msg.body = .WRITE_REQ q key e ∧ m.body = .WRITE_RESP q) ∨
        (∃ q key, msg.body = .READ_REQ q key ∧
          m.body = .READ_RESP q ((nd.store.data.get key).map Entry.toDict))) := by
  unfold onMessage at h
  cases hb : msg.body with
  | WRITE_REQ q key e =>
    rw [hb] at h
    rw [List.mem_singleton] at h
    subst h
    exact ⟨rfl, .inl ⟨q, key, e, rfl, rfl⟩⟩
  | READ_REQ q key =>
    rw [hb] at h
    rw [List.mem_singleton] at h
    subst h
    exact ⟨rfl, .inr ⟨q, key, rfl, rfl⟩⟩
  | WRITE_RESP q =>
    rw [hb] at h
    dsimp only at h
    split at h <;> cases h
  | READ_RESP q x =>
    rw [hb] at h
    dsimp only at h
    split at h <;> cases h

theorem get_setPending {nd : KvNode ν α} {kv kv' : KVStore ν α} (hkv : nd.kvs[j]? = some kv)
    (hkv' : (nd.setPending j kv r p).kvs[i]? = some kv') :
    kv'.pending.get q = (if i = j ∧ q = r then some p else
      (nd.kvs[i]?).bind (fun kv₀ => kv₀.pending.get q)) := by
  simp only [setPending, setKv, List.getElem?_set] at hkv'
  by_cases hij : j = i
  · subst hij
    obtain ⟨hlt, _⟩ := List.getElem?_eq_some_iff.1 hkv
    simp only [hlt, if_true, Option.some.injEq] at hkv'
    subst hkv'
    simp [Dict.get_set, hkv]
  · rw [if_neg hij] at hkv'
    rw [if_neg (fun h => hij h.1.symm), hkv']
    rfl

end

/-- The answers that a node has collected for a request. -/
def Collected (nd : KvNode ν α) (q : ReqId ν)
    (p : ν × Option (EntryData ℚ ν (KvValue α))) : Prop :=
  ∃ (j : ℕ) (kv : KVStore ν α) (l : _), nd.kvs[j]? = some kv ∧
    kv.pending.get q = some (.responses l) ∧ p ∈ l

section
omit [DecidableEq α]

theorem collected_setPending {nd : KvNode ν α} (hkv : nd.kvs[j]? = some kv)
    (h : (nd.setPending j kv r p).Collected q x) :
    nd.Collected q x ∨ (q = r ∧ ∃ l, p = .responses l ∧ x ∈ l) := by
  obtain ⟨i, kv', l, hkv', hp, hx⟩ := h
  rw [get_setPending hkv hkv'] at hp
  split at hp
  · rename_i hij
    cases hp
    exact .inr ⟨hij.2, l, rfl, hx⟩
  · obtain ⟨kv₀, hkv₀, hp⟩ := Option.bind_eq_some_iff.1 hp
    exact .inl ⟨i, kv₀, l, hkv₀, hp, hx⟩

theorem collected_onMessage {nd : KvNode ν α} (hkv : nd.kvs[j]? = some kv)
    (h : (nd.onMessage n j kv msg).1.Collected q x) :
    nd.Collected q x ∨ (msg.body = .READ_RESP q x.2 ∧ msg.src = x.1) := by
  unfold onMessage at h
  cases hb : msg.body with
  | WRITE_REQ r key e =>
    rw [hb] at h
    exact .inl h
  | READ_REQ r key =>
    rw [hb] at h
    exact .inl h
  | WRITE_RESP r =>
    rw [hb] at h
    dsimp only at h
    split at h
    · rcases collected_setPending hkv h with h | ⟨_, l, hl, _⟩
      · exact .inl h
      · cases hl
    · exact .inl h
  | READ_RESP r y =>
    rw [hb] at h
    dsimp only at h
    split at h
    · rename_i l hl
      rcases collected_setPending hkv h with h | ⟨rfl, l', hl', hx⟩
      · exact .inl h
      · cases hl'
        rcases List.mem_append.1 hx with hx | hx
        · exact .inl ⟨j, kv, l, hkv, hl, hx⟩
        · rw [List.mem_singleton] at hx
          subst hx
          exact .inr ⟨rfl, rfl⟩
    · exact .inl h

theorem PendingFrom.collected {nd nd' : KvNode ν α} (h : nd.PendingFrom nd')
    (hc : nd'.Collected q x) : nd.Collected q x := by
  obtain ⟨j, kv', l, hkv', hp, hx⟩ := hc
  obtain ⟨kv, hkv, hp⟩ := h j kv' q _ hkv' hp
  exact ⟨j, kv, l, hkv, hp, hx⟩

end

end KvNode

namespace KvSwarm

theorem nextReq_step {s s' : KvSwarm ν α} (h : s.step a = some s') (n : ν) :
    (s.node n).nextReq ≤ (s'.node n).nextReq := by
  rcases step_cases h with hq | ⟨k, kv, c, p, s₁, hq, _, _, _, _, _, _, rfl⟩ |
    ⟨k, i, c, m, ms, _, _, rfl⟩ | ⟨k, i, msg, l, _, _, _, _, rfl⟩ |
    ⟨k, t, i, j, msg, kv, _, _, _, _, rfl⟩
  · rw [hq.nextReq]
  · rw [← hq.nextReq]
    by_cases hk : n = k
    · subst hk
      simp [call, setNode]
    · simp [call, setNode, hk]
  · by_cases hk : n = k
    · subst hk
      simp [setNode]
    · simp [setNode, hk]
  · by_cases hk : n = k
    · subst hk
      simp [setNode]
    · simp [setNode, hk]
  · obtain ⟨_, _, hnext, _⟩ := (s.node k).onMessage_frame k j kv msg
    by_cases hk : n = k
    · subst hk
      simp [handled, setNode, hnext]
    · simp [handled, setNode, hk]

theorem call_step {s s' : KvSwarm ν α} (h : s.step a = some s')
    (hc : c ∈ (s'.node n).calls) :
    (∃ c₀ ∈ (s.node n).calls, c₀.req = c.req ∧ c₀.key = c.key ∧ c₀.wrote = c.wrote) ∨
      (c.req = (n, (s.node n).nextReq) ∧ (s'.node n).nextReq = (s.node n).nextReq + 1) := by
  have hold : ∀ x ∈ (s.node n).calls, ∃ c₀ ∈ (s.node n).calls,
      c₀.req = x.req ∧ c₀.key = x.key ∧ c₀.wrote = x.wrote :=
    fun x hx => ⟨x, hx, rfl, rfl, rfl⟩
  rcases step_cases h with hq | ⟨k, kv, c', p, s₁, hq, _, hreq, _, _, _, _, rfl⟩ |
    ⟨k, i, c', m, ms, hc', _, rfl⟩ | ⟨k, i, msg, l, _, _, _, _, rfl⟩ |
    ⟨k, t, i, j, msg, kv, _, _, _, _, rfl⟩
  · exact .inl (hold c ((hq.calls n).subset hc))
  · by_cases hk : n = k
    · subst hk
      simp only [call, setNode, Function.update_self] at hc
      rcases List.mem_append.1 hc with hc | hc
      · exact .inl (hold c ((hq.calls n).subset hc))
      · rw [List.mem_singleton] at hc
        subst hc
        rw [← hq.nextReq]
        exact .inr ⟨hreq, by simp [call, setNode]⟩
    · simp only [call, setNode, Function.update_of_ne hk] at hc
      exact .inl (hold c ((hq.calls n).subset hc))
  · by_cases hk : n = k
    · subst hk
      simp only [setNode, Function.update_self] at hc
      rcases List.mem_or_eq_of_mem_set hc with hc | rfl
      · exact .inl (hold c hc)
      · exact .inl (hold c' (List.mem_of_getElem? hc'))
    · simp only [setNode, Function.update_of_ne hk] at hc
      exact .inl (hold c hc)
  · by_cases hk : n = k
    · subst hk
      simp only [setNode, Function.update_self] at hc
      exact .inl (hold c hc)
    · simp only [setNode, Function.update_of_ne hk] at hc
      exact .inl (hold c hc)
  · obtain ⟨_, hcalls, _, _⟩ := (s.node k).onMessage_frame k j kv msg
    by_cases hk : n = k
    · subst hk
      simp only [handled, setNode, Function.update_self, hcalls] at hc
      exact .inl (hold c hc)
    · simp only [handled, setNode, Function.update_of_ne hk] at hc
      exact .inl (hold c hc)

theorem call_step_used {s s' : KvSwarm ν α} (h : s.step a = some s')
    (hc : c ∈ (s'.node n).calls) (hused : c.req.2 < (s.node c.req.1).nextReq) :
    ∃ c₀ ∈ (s.node n).calls, c₀.req = c.req ∧ c₀.key = c.key ∧ c₀.wrote = c.wrote := by
  rcases call_step h hc with hold | ⟨hr, _⟩
  · exact hold
  · rw [hr] at hused
    exact absurd hused (lt_irrefl _)

theorem sent_step {s s' : KvSwarm ν α} (h : s.step a = some s') (hm : msg ∈ s'.sent) :
    msg ∈ s.sent ∨ (∃ n m, ∃ c ∈ (s.node n).calls, msg = request n m c) ∨
      (∃ req ∈ s.sent, ∃ q key e, req.body = .WRITE_REQ q key e ∧ msg.body = .WRITE_RESP q ∧
        s'.Holds msg.src key (Entry.fromDict e).version) ∨
      (∃ req ∈ s.sent, ∃ q key, req.body = .READ_REQ q key ∧
        msg.body = .READ_RESP q (((s.node msg.src).store.data.get key).map Entry.toDict)) := by
  rcases step_cases h with hq | ⟨k, kv, c', p, s₁, hq, _, hreq, _, _, _, _, rfl⟩ |
    ⟨k, i, c', m, ms, hc', _, rfl⟩ | ⟨k, i, msg', l, _, _, _, _, rfl⟩ |
    ⟨k, t, i, j, msg', kv, _, _, hi, _, rfl⟩
  · rw [hq.sent] at hm
    exact .inl hm
  · have hsent : (s₁.call k kv c' p).sent = s.sent := hq.sent
    rw [hsent] at hm
    exact .inl hm
  · rcases List.mem_append.1 hm with hm | hm
    · exact .inl hm
    · rw [List.mem_singleton] at hm
      exact .inr (.inl ⟨k, m, c', List.mem_of_getElem? hc', hm⟩)
  · exact .inl hm
  · rcases List.mem_append.1 hm with hm | hm
    · exact .inl hm
    · obtain ⟨hsrc, ⟨q, key, e, hb, hb'⟩ | ⟨q, key, hb, hb'⟩⟩ := KvNode.mem_onMessage hm
      · obtain ⟨_, key', e', he', hheld⟩ := holds_handled (t := t) (i := i) hm hb'
        rw [hb] at he'
        cases he'
        refine .inr (.inr (.inl ⟨msg', List.mem_of_getElem? hi, q, key, e, hb, hb', ?_⟩))
        rw [hsrc]
        exact hheld
      · refine .inr (.inr (.inr ⟨msg', List.mem_of_getElem? hi, q, key, hb, ?_⟩))
        rw [hsrc]
        exact hb'

theorem collected_step {s s' : KvSwarm ν α} (h : s.step a = some s')
    (hx : (s'.node n).Collected q x) :
    (s.node n).Collected q x ∨
      (∃ msg ∈ s.sent, msg.body = .READ_RESP q x.2 ∧ msg.src = x.1) ∨
      (q = (n, (s.node n).nextReq) ∧ (s'.node n).nextReq = (s.node n).nextReq + 1) := by
  rcases step_cases h with hq | ⟨k, kv, c', p, s₁, hq, hkv, hreq, _, _, _, _, rfl⟩ |
    ⟨k, i, c', m, ms, hc', _, rfl⟩ | ⟨k, i, msg', l, _, _, _, _, rfl⟩ |
    ⟨k, t, i, j, msg', kv, _, _, hi, hkv, rfl⟩
  · exact .inl ((hq.pending n).collected hx)
  · by_cases hk : n = k
    · subst hk
      simp only [call, setNode, Function.update_self] at hx
      rcases KvNode.collected_setPending hkv hx with hx | ⟨rfl, _⟩
      · exact .inl ((hq.pending n).collected hx)
      · rw [← hq.nextReq]
        exact .inr (.inr ⟨hreq, by simp [call, setNode]⟩)
    · simp only [call, setNode, Function.update_of_ne hk] at hx
      exact .inl ((hq.pending n).collected hx)
  · by_cases hk : n = k
    · subst hk
      simp only [setNode, Function.update_self] at hx
      exact .inl hx
    · simp only [setNode, Function.update_of_ne hk] at hx
      exact .inl hx
  · by_cases hk : n = k
    · subst hk
      simp only [setNode, Function.update_self] at hx
      exact .inl hx
    · simp only [setNode, Function.update_of_ne hk] at hx
      exact .inl hx
  · by_cases hk : n = k
    · subst hk
      simp only [handled, setNode, Function.update_self] at hx
      rcases KvNode.collected_onMessage hkv hx with hx | ⟨hb, hsrc⟩
      · exact .inl hx
      · exact .inr (.inl ⟨msg', List.mem_of_getElem? hi, hb, hsrc⟩)
    · simp only [handled, setNode, Function.update_of_ne hk] at hx
      exact .inl hx

/-- Messages, calls and answers belong to requests that their node has made. -/
structure Fresh (s : KvSwarm ν α) : Prop where
  sent : ∀ msg ∈ s.sent, msg.body.req.2 < (s.node msg.body.req.1).nextReq
  calls : ∀ n, ∀ c ∈ (s.node n).calls, c.req.2 < (s.node c.req.1).nextReq
  answers : ∀ n q x, (s.node n).Collected q x → q.2 < (s.node q.1).nextReq

section
omit [LinearOrder ν] [DecidableEq α]

theorem request_req (n m : ν) (c : KvCall ν α) : (request n m c).body.req = c.req := by
  unfold request
  split <;> rfl

end

section
omit [DecidableEq α]

theorem Fresh.init : (KvSwarm.init : KvSwarm ν α).Fresh where
  sent msg hm := by cases hm
  calls n c hc := by cases hc
  answers n q x hx := by
    obtain ⟨j, kv, l, hkv, _⟩ := hx
    cases hkv

end

theorem Fresh.step {s s' : KvSwarm ν α} (h : s.Fresh) (hs : s.step a = some s') : s'.Fresh where
  sent msg hm := by
    have hmono := nextReq_step hs msg.body.req.1
    rcases sent_step hs hm with hm | ⟨n, m, c, hc, rfl⟩ | ⟨req, hr, q, key, e, hb, hb', _⟩ |
      ⟨req, hr, q, key, hb, hb'⟩
    · exact (h.sent msg hm).trans_le hmono
    · rw [request_req] at hmono ⊢
      exact (h.calls n c hc).trans_le hmono
    · have hlt := h.sent req hr
      rw [hb] at hlt
      rw [hb'] at hmono ⊢
      exact hlt.trans_le hmono
    · have hlt := h.sent req hr
      rw [hb] at hlt
      rw [hb'] at hmono ⊢
      exact hlt.trans_le hmono
  calls n c hc := by
    rcases call_step hs hc with ⟨c₀, hc₀, hreq, _⟩ | ⟨hreq, hnext⟩
    · rw [← hreq]
      exact (h.calls n c₀ hc₀).trans_le (nextReq_step hs _)
    · rw [hreq, hnext]
      exact Nat.lt_succ_self _
  answers n q x hx := by
    have hmono := nextReq_step hs q.1
    rcases collected_step hs hx with hx | ⟨msg, hm, hb, _⟩ | ⟨rfl, hnext⟩
    · exact (h.answers n q x hx).trans_le hmono
    · have hlt := h.sent msg hm
      rw [hb] at hlt
      exact hlt.trans_le hmono
    · rw [hnext]
      exact Nat.lt_succ_self _

theorem Fresh.of_run {s : KvSwarm ν α} (h : Run KvSwarm.step KvSwarm.init past s) : s.Fresh :=
  h.invariant (C := fun _ _ => True) (fun _ _ => trivial) Fresh.init
    (fun _ _ _ hf _ hs => hf.step hs)

section
omit [DecidableEq α]

theorem Fresh.next {s : KvSwarm ν α} (h : s.Fresh) (n : ν) :
    (∀ msg ∈ s.sent, msg.body.req ≠ (n, (s.node n).nextReq)) ∧
      (∀ k, ∀ c ∈ (s.node k).calls, c.req ≠ (n, (s.node n).nextReq)) ∧
      ∀ k x, ¬ (s.node k).Collected (n, (s.node n).nextReq) x := by
  refine ⟨fun msg hm hreq => ?_, fun k c hc hreq => ?_, fun k x hx => ?_⟩
  · have hlt := h.sent msg hm
    rw [hreq] at hlt
    exact lt_irrefl _ hlt
  · have hlt := h.calls k c hc
    rw [hreq] at hlt
    exact lt_irrefl _ hlt
  · exact lt_irrefl _ (h.answers k _ x hx)

theorem calls_write (s : KvSwarm ν α) (n : ν) (ws : List (LocalWrite α)) (clock : ℕ → ℚ) (k : ν) :
    ((s.write n ws clock).node k).calls = (s.node k).calls := by
  by_cases hk : k = n
  · subst hk
    simp [write, setNode]
  · simp [write, setNode, hk]

theorem calls_call {s : KvSwarm ν α} {c c' : KvCall ν α}
    (hno : ∀ c ∈ (s.node k).calls, c.req ≠ q) (hc : c ∈ ((s.call n kv c' p).node k).calls)
    (hreq : c.req = q) : c = c' := by
  by_cases hk : k = n
  · subst hk
    simp only [call, setNode, Function.update_self] at hc
    rcases List.mem_append.1 hc with hc | hc
    · exact absurd hreq (hno c hc)
    · exact List.mem_singleton.1 hc
  · simp only [call, setNode, Function.update_of_ne hk] at hc
    exact absurd hreq (hno c hc)

end

/-- The request `q` was made to write `e` for `key`, and who acknowledged it holds the entry or a
newer one. -/
structure Writes (q : ReqId ν) (key : Str) (e : Entry ℚ ν (KvValue α)) (s : KvSwarm ν α) :
    Prop where
  used : q.2 < (s.node q.1).nextReq
  calls : ∀ n, ∀ c ∈ (s.node n).calls, c.req = q → c.key = key ∧ c.wrote = some e
  requests : ∀ msg ∈ s.sent, ∀ key' x, msg.body = .WRITE_REQ q key' x →
    key' = key ∧ Entry.fromDict x = e
  acks : ∀ msg ∈ s.sent, msg.body = .WRITE_RESP q → s.Holds msg.src key e.version
  writer : s.Holds q.1 key e.version

theorem Writes.step {s s' : KvSwarm ν α} (h : Writes q key e s) (hs : s.step a = some s')
    (hsp : Spares key s a) : Writes q key e s' where
  used := h.used.trans_le (nextReq_step hs _)
  calls n c hc hreq := by
    obtain ⟨c₀, hc₀, hr, hk, hw⟩ := call_step_used hs hc (hreq.symm ▸ h.used)
    rw [← hk, ← hw]
    exact h.calls n c₀ hc₀ (hr.trans hreq)
  requests msg hm key' x hb := by
    rcases sent_step hs hm with hm | ⟨n, m, c, hc, rfl⟩ | ⟨req, _, r, key₀, e₀, _, hb', _⟩ |
      ⟨req, _, r, key₀, _, hb'⟩
    · exact h.requests msg hm key' x hb
    · obtain ⟨hr, hk, hw⟩ := request_body hb
      obtain ⟨hk', hw'⟩ := h.calls n c hc hr.symm
      rw [hw', Option.map_some, Option.some.injEq] at hw
      rw [hk, hk', ← hw, Entry.fromDict_toDict]
      exact ⟨rfl, rfl⟩
    · rw [hb] at hb'
      cases hb'
    · rw [hb] at hb'
      cases hb'
  acks msg hm hb := by
    rcases sent_step hs hm with hm | ⟨n, m, c, hc, rfl⟩ | ⟨req, hr, r, key₀, e₀, hb₀, hb', hheld⟩ |
      ⟨req, _, r, key₀, _, hb'⟩
    · exact (h.acks msg hm hb).step hs hsp
    · have hno := isWriteResp_request q n m c
      rw [isWriteResp_iff.2 hb] at hno
      cases hno
    · rw [hb] at hb'
      cases hb'
      obtain ⟨rfl, rfl⟩ := h.requests req hr key₀ e₀ hb₀
      exact hheld
    · rw [hb] at hb'
      cases hb'
  writer := h.writer.step hs hsp

/-- Every entry held for `key` is `e` or has a smaller version. -/
def Tops (key : Str) (e : Entry ℚ ν (KvValue α)) (s : KvSwarm ν α) : Prop :=
  ∀ n x, (s.node n).store.data.get key = some x → x = e ∨ x.version < e.version

section
omit [DecidableEq α]

theorem Holds.get_eq {s : KvSwarm ν α} (h : s.Holds n key e.version) (ht : Tops key e s) :
    (s.node n).store.data.get key = some e := by
  obtain ⟨x, hx, hle⟩ := h
  rcases ht n x hx with rfl | hlt
  · exact hx
  · exact absurd hlt (not_lt.2 hle)

end

/-- What a node may answer: nothing, `e` or an older entry, and exactly `e` when it is in `S`. -/
def Answers (e : Entry ℚ ν (KvValue α)) (S : Finset ν) (n : ν)
    (x : Option (EntryData ℚ ν (KvValue α))) : Prop :=
  (∀ d, x = some d → Entry.fromDict d = e ∨ (Entry.fromDict d).version < e.version) ∧
    (n ∈ S → x = some e.toDict)

section
omit [DecidableEq α]

theorem Tops.answers {s : KvSwarm ν α} (h : Tops key e s)
    (hS : ∀ m ∈ S, s.Holds m key e.version) (n : ν) :
    Answers e S n (((s.node n).store.data.get key).map Entry.toDict) := by
  constructor
  · intro d hd
    obtain ⟨x, hx, rfl⟩ := Option.map_eq_some_iff.1 hd
    rw [Entry.fromDict_toDict]
    exact h n x hx
  · intro hn
    rw [(hS n hn).get_eq h]
    rfl

end

/-- The request `g` was made to read `key`. -/
structure Asks (g : ReqId ν) (key : Str) (s : KvSwarm ν α) : Prop where
  used : g.2 < (s.node g.1).nextReq
  calls : ∀ n, ∀ c ∈ (s.node n).calls, c.req = g → c.key = key ∧ c.wrote = none
  requests : ∀ msg ∈ s.sent, ∀ key', msg.body = .READ_REQ g key' → key' = key

theorem Asks.step {s s' : KvSwarm ν α} (h : Asks g key s) (hs : s.step a = some s') :
    Asks g key s' where
  used := h.used.trans_le (nextReq_step hs _)
  calls n c hc hreq := by
    obtain ⟨c₀, hc₀, hr, hk, hw⟩ := call_step_used hs hc (hreq.symm ▸ h.used)
    rw [← hk, ← hw]
    exact h.calls n c₀ hc₀ (hr.trans hreq)
  requests msg hm key' hb := by
    rcases sent_step hs hm with hm | ⟨n, m, c, hc, rfl⟩ | ⟨req, _, r, key₀, e₀, _, hb', _⟩ |
      ⟨req, _, r, key₀, _, hb'⟩
    · exact h.requests msg hm key' hb
    · have hreq := request_req n m c
      rw [hb] at hreq
      obtain ⟨hk, hw⟩ := h.calls n c hc hreq.symm
      unfold request at hb
      rw [hw] at hb
      cases hb
      exact hk
    · rw [hb] at hb'
      cases hb'
    · rw [hb] at hb'
      cases hb'

theorem Asks.answer_step {s s' : KvSwarm ν α} (h : Asks g key s) (hs : s.step a = some s')
    (hm : msg ∈ s'.sent) (hb : msg.body = .READ_RESP g x) :
    msg ∈ s.sent ∨ x = ((s.node msg.src).store.data.get key).map Entry.toDict := by
  rcases sent_step hs hm with hm | ⟨n, m, c, hc, rfl⟩ | ⟨req, hr, r, key₀, e₀, hb₀, hb', hheld⟩ |
    ⟨req, hr, r, key₀, hb₀, hb'⟩
  · exact .inl hm
  · unfold request at hb
    split at hb <;> cases hb
  · rw [hb] at hb'
    cases hb'
  · rw [hb] at hb'
    cases hb'
    obtain rfl := h.requests req hr key₀ hb₀
    exact .inr rfl

theorem Asks.collected_step {s s' : KvSwarm ν α} (h : Asks g key s) (hs : s.step a = some s')
    (hx : (s'.node n).Collected g x) :
    (s.node n).Collected g x ∨ ∃ msg ∈ s.sent, msg.body = .READ_RESP g x.2 ∧ msg.src = x.1 := by
  rcases KvSwarm.collected_step hs hx with hx | hmsg | ⟨rfl, _⟩
  · exact .inl hx
  · exact .inr hmsg
  · exact absurd h.used (lt_irrefl _)

/-- The request `g` was made to read `key`, and every answer to it is as the nodes in `S` hold
`e`. -/
structure Reads (g : ReqId ν) (key : Str) (e : Entry ℚ ν (KvValue α)) (S : Finset ν)
    (s : KvSwarm ν α) : Prop where
  used : g.2 < (s.node g.1).nextReq
  calls : ∀ n, ∀ c ∈ (s.node n).calls, c.req = g → c.key = key ∧ c.wrote = none
  requests : ∀ msg ∈ s.sent, ∀ key', msg.body = .READ_REQ g key' → key' = key
  answers : ∀ msg ∈ s.sent, ∀ x, msg.body = .READ_RESP g x → Answers e S msg.src x
  collected : ∀ n x, (s.node n).Collected g x → Answers e S x.1 x.2

theorem Asks.of_run {s s' : KvSwarm ν α} (h : Asks g key s) (hr : Run KvSwarm.step s past s') :
    Asks g key s' :=
  hr.invariant (I := fun t => Asks g key t) (C := fun _ _ => True) (fun _ _ => trivial) h
    (fun _ _ _ ht _ hs => ht.step hs)

section
omit [DecidableEq α]

theorem Reads.asks {s : KvSwarm ν α} (h : Reads g key e S s) : Asks g key s :=
  ⟨h.used, h.calls, h.requests⟩

end

theorem Reads.step {s s' : KvSwarm ν α} (h : Reads g key e S s) (hs : s.step a = some s')
    (ht : Tops key e s) (hS : ∀ m ∈ S, s.Holds m key e.version) : Reads g key e S s' where
  used := (h.asks.step hs).used
  calls := (h.asks.step hs).calls
  requests := (h.asks.step hs).requests
  answers msg hm x hb := by
    rcases h.asks.answer_step hs hm hb with hm | rfl
    · exact h.answers msg hm x hb
    · exact ht.answers hS msg.src
  collected n x hx := by
    rcases h.asks.collected_step hs hx with hx | ⟨msg, hm, hb, hsrc⟩
    · exact h.collected n x hx
    · rw [← hsrc]
      exact h.answers msg hm x.2 hb

theorem writes_start {s s' : KvSwarm ν α} (hf : s.Fresh)
    (hkv : (s.node n).kvs[j]? = some kv)
    (hs : s.step (.quorumPut n j key v w ttl peers now clock) = some s') :
    Writes (n, (s.node n).nextReq) (kv.k key) (kv.quorumPutEntry (s.node n).store key v clock)
      s' := by
  obtain ⟨kv', hkv', hs⟩ := Option.bind_eq_some_iff.1 hs
  rw [hkv] at hkv'
  cases hkv'
  split at hs
  · cases hs
    obtain ⟨hold, hunused, hnone⟩ := hf.next n
    constructor
    · simp [call, write, setNode]
    · intro k c hc hreq
      obtain rfl := calls_call (fun c hc => hunused k c (by rwa [calls_write] at hc)) hc hreq
      exact ⟨rfl, rfl⟩
    · intro msg hm key' x hb
      exact absurd (by rw [hb]; rfl) (hold msg hm)
    · intro msg hm hb
      exact absurd (by rw [hb]; rfl) (hold msg hm)
    · refine ⟨_, ?_, le_rfl⟩
      simp only [call, write, setNode, Function.update_self, KvNode.setPending, KvNode.setKv]
      exact kv.get_quorumPutWrites _ key v ttl now clock
  · cases hs

theorem asks_start {s s' : KvSwarm ν α} (hf : s.Fresh) (hkv : (s.node n).kvs[j]? = some kv)
    (hs : s.step (.quorumGet n j key r peers) = some s') :
    Asks (n, (s.node n).nextReq) (kv.k key) s' ∧
      (∀ msg ∈ s'.sent, ∀ x, msg.body ≠ .READ_RESP (n, (s.node n).nextReq) x) ∧
      (∀ k x, (s'.node k).Collected (n, (s.node n).nextReq) x →
        x = (n, ((s.node n).store.data.get (kv.k key)).map Entry.toDict)) := by
  obtain ⟨kv', hkv', hs⟩ := Option.bind_eq_some_iff.1 hs
  rw [hkv] at hkv'
  cases hkv'
  split at hs
  · cases hs
    obtain ⟨hold, hunused, hnone⟩ := hf.next n
    refine ⟨⟨?_, ?_, ?_⟩, ?_, ?_⟩
    · simp [call, setNode]
    · intro k c hc hreq
      obtain rfl := calls_call (hunused k) hc hreq
      exact ⟨rfl, rfl⟩
    · intro msg hm key' hb
      exact absurd (by rw [hb]; rfl) (hold msg hm)
    · intro msg hm x hb
      exact absurd (by rw [hb]; rfl) (hold msg hm)
    · intro k x hx
      by_cases hk : k = n
      · subst hk
        simp only [call, setNode, Function.update_self] at hx
        rcases KvNode.collected_setPending hkv hx with hx | ⟨_, l, hl, hx⟩
        · exact absurd hx (hnone k x)
        · cases hl
          exact List.mem_singleton.1 hx
      · simp only [call, setNode, Function.update_of_ne hk] at hx
        exact absurd hx (hnone k x)
  · cases hs

theorem reads_start {s s' : KvSwarm ν α} (hf : s.Fresh)
    (hkv : (s.node n).kvs[j]? = some kv) (ht : Tops (kv.k key) e s)
    (hS : ∀ m ∈ S, s.Holds m (kv.k key) e.version)
    (hs : s.step (.quorumGet n j key r peers) = some s') :
    Reads (n, (s.node n).nextReq) (kv.k key) e S s' := by
  obtain ⟨hasks, hsent, hown⟩ := asks_start hf hkv hs
  refine ⟨hasks.used, hasks.calls, hasks.requests, ?_, ?_⟩
  · exact fun msg hm x hb => absurd hb (hsent msg hm x)
  · intro k x hx
    rw [hown k x hx]
    exact ht.answers hS n

end KvSwarm

section
omit [DecidableEq α]

theorem isNewest_bestOf (l : List (ν × Option (EntryData ℚ ν (KvValue α)))) :
    IsNewest Entry.version {x | ∃ p ∈ l, p.2.map Entry.fromDict = some x} (bestOf l) := by
  induction l using List.reverseRecOn with
  | nil =>
    apply Set.eq_empty_of_forall_notMem
    intro x hx
    obtain ⟨p, hp, _⟩ := hx
    cases hp
  | append_singleton l p ih =>
    rw [bestOf, List.foldl_append, List.foldl_cons, List.foldl_nil, ← bestOf]
    cases hp : p.2 with
    | none =>
      apply ih.congr
      intro x
      simp [or_and_right, exists_or, hp]
    | some d =>
      apply (ih.merge (Entry.fromDict d)).congr
      intro x
      simp [or_and_right, exists_or, hp, eq_comm, or_comm]

theorem bestOf_eq {l : List (ν × Option (EntryData ℚ ν (KvValue α)))}
    (hle : ∀ p ∈ l, ∀ d, p.2 = some d →
      Entry.fromDict d = e ∨ (Entry.fromDict d).version < e.version)
    (hex : ∃ p ∈ l, p.2 = some e.toDict) : bestOf l = some e := by
  have hnew := isNewest_bestOf l
  obtain ⟨p, hp, he⟩ := hex
  obtain ⟨b, hb, hge⟩ := hnew.le ⟨p, hp, by rw [he, Option.map_some, Entry.fromDict_toDict]⟩
  obtain ⟨p', hp', hb'⟩ := hnew.mem hb
  obtain ⟨d, hd, rfl⟩ := Option.map_eq_some_iff.1 hb'
  rw [hb]
  rcases hle p' hp' d hd with heq | hlt
  · rw [heq]
  · exact absurd hlt (not_lt.2 hge)

end

def KvAction.delivery : KvAction ν α → Option (ν × ℕ)
  | .deliver n i => some (n, i)
  | _ => none

namespace KvSwarm

/-- Every node has at most one `KVStore`, and a node takes no message in twice. -/
def OneStore (s : KvSwarm ν α) (a : KvAction ν α) : Prop :=
  (∀ n, (s.node n).kvs.length ≤ 1) ∧
    ∀ p ∈ a.delivery, p.2 ∈ s.delivered p.1 → p.2 ∈ (s.node p.1).seen

instance [Fintype ν] (s : KvSwarm ν α) (a : KvAction ν α) : Decidable (s.OneStore a) :=
  inferInstanceAs (Decidable ((∀ n, (s.node n).kvs.length ≤ 1) ∧
    ∀ p ∈ a.delivery, p.2 ∈ s.delivered p.1 → p.2 ∈ (s.node p.1).seen))

theorem OneStore.meets {s s' : KvSwarm ν α} (h : s.OneStore a) (hs : s.step a = some s') :
    s.Meets a := by
  cases a with
  | deliver n i => exact h.2 (n, i) rfl
  | handle n t =>
    obtain ⟨⟨i, j⟩, ht, hs⟩ := Option.bind_eq_some_iff.1 hs
    obtain ⟨msg, _, hs⟩ := Option.bind_eq_some_iff.1 hs
    obtain ⟨kv, hkv, _⟩ := Option.bind_eq_some_iff.1 hs
    intro p hp msg' _ _
    have hpij : p = (i, j) := Option.some.inj (hp.symm.trans ht)
    obtain ⟨hlt, _⟩ := List.getElem?_eq_some_iff.1 hkv
    have hlen := h.1 n
    rw [hpij]
    dsimp only
    omega
  | create n nspace => trivial
  | put n j key value ttl now clock => trivial
  | get n j key now clock => trivial
  | delete n j key clock => trivial
  | sweepExpired n j now clock => trivial
  | createIndex n j name extractor now clock => trivial
  | quorumPut n j key value w ttl peers now clock => trivial
  | quorumGet n j key r peers => trivial
  | send n i => trivial
  | finish n i => trivial
  | digest n => trivial
  | mergeEntry n i key => trivial
  | applyDigest n i => trivial

theorem meets_of_run {s : KvSwarm ν α} {x : KvSwarm ν α × KvAction ν α}
    (h : Run KvSwarm.step s₀ past s) (hx : x ∈ past) (hone : x.1.OneStore x.2) :
    x.1.Meets x.2 := by
  obtain ⟨_, _, t', _, _, hs, _⟩ := h.of_mem_past hx
  exact hone.meets hs

section
omit [DecidableEq α]

theorem exists_write_quorum {s : KvSwarm ν α} (hok : s.Ok) (h : Writes q key e s)
    (hc : c ∈ (s.node n).calls) (hreq : c.req = q) :
    ∃ S : Finset ν, (s.node n).ackCount c ≤ S.card ∧ ∀ m ∈ S, s.Holds m key e.version := by
  obtain ⟨hself, hle⟩ := hok.ackCount_le hc
  have hn : q.1 = n := by
    rw [← hreq]
    exact ((hok.node n).calls c hc).1
  refine ⟨insert n (s.ackers c.req), ?_, ?_⟩
  · rw [Finset.card_insert_of_notMem hself]
    exact hle
  · intro m hm
    rcases Finset.mem_insert.1 hm with rfl | hacker
    · rw [← hn]
      exact h.writer
    · rw [ackers, List.mem_toFinset, List.mem_map] at hacker
      obtain ⟨msg, hmsg, rfl⟩ := hacker
      obtain ⟨hmsg, hresp⟩ := List.mem_filter.1 hmsg
      rw [isWriteResp_iff, hreq] at hresp
      exact h.acks msg hmsg hresp

theorem collected_of_mem {nd : KvNode ν α} (h : p ∈ nd.collected c) : nd.Collected c.req p := by
  unfold KvNode.collected KvNode.pendingOf at h
  split at h
  · rename_i l hl
    obtain ⟨kv, hkv, hl⟩ := Option.bind_eq_some_iff.1 hl
    exact ⟨c.inst, kv, l, hkv, hl, h⟩
  · cases h

end

/-- A `quorum_get` that collected an answer of a node in `S` returns the value and repairs its
own store. -/
theorem Reads.finish {s s' : KvSwarm ν α} (h : Reads c.req key e S s) (ht : Tops key e s)
    (hi : (s.node n).calls[i]? = some c)
    (hex : ∃ p ∈ (s.node n).collected c, p.1 ∈ S) (hs : s.step (.finish n i) = some s') :
    bestOf ((s.node n).collected c) = some e ∧ (s'.node n).store.data.get key = some e := by
  obtain ⟨hkey, hwrote⟩ := h.calls n c (List.mem_of_getElem? hi) rfl
  have hcol : ∀ p ∈ (s.node n).collected c, Answers e S p.1 p.2 :=
    fun p hp => h.collected n p (collected_of_mem hp)
  have hbest : bestOf ((s.node n).collected c) = some e := by
    apply bestOf_eq
    · exact fun p hp => (hcol p hp).1
    · obtain ⟨p, hp, hS⟩ := hex
      exact ⟨p, hp, (hcol p hp).2 hS⟩
  refine ⟨hbest, ?_⟩
  obtain ⟨c', hi', hs⟩ := Option.bind_eq_some_iff.1 hs
  rw [hi] at hi'
  cases hi'
  split at hs
  · cases hs
    simp only [KvSwarm.finish, hwrote, setNode, Function.update_self, KvNode.repaired, hbest]
    rw [DistributedStore.get_mergeEntry, if_pos hkey.symm, hkey]
    cases hx : (s.node n).store.data.get key with
    | none => rfl
    | some x =>
      rcases ht n x hx with rfl | hlt
      · exact congrArg some (if_neg (lt_irrefl _))
      · exact congrArg some (if_pos hlt)
  · cases hs

/-- A state in which every node of `S` holds the entry, along a run without writes to the key. -/
theorem holds_of_run {s s' : KvSwarm ν α} {S : Finset ν} (h : Run KvSwarm.step s past s')
    (hsp : ∀ x ∈ past, Spares key x.1 x.2) (hS : ∀ m ∈ S, s.Holds m key v) :
    ∀ m ∈ S, s'.Holds m key v :=
  h.invariant (I := fun t => ∀ m ∈ S, t.Holds m key v) hsp hS
    (fun _ _ _ ht hc hs m hm => (ht m hm).step hs hc)

theorem reads_of_run {s s' : KvSwarm ν α} (h : Run KvSwarm.step s past s')
    (hsp : ∀ x ∈ past, Spares key x.1 x.2) (ht : ∀ x ∈ past, Tops key e x.1)
    (hS : ∀ m ∈ S, s.Holds m key e.version) (hr : Reads g key e S s) : Reads g key e S s' := by
  induction h with
  | start => exact hr
  | @next past t a t' hrun hs ih =>
    have hsp' := fun x hx => hsp x (List.mem_cons_of_mem _ hx)
    have ht' := fun x hx => ht x (List.mem_cons_of_mem _ hx)
    have hheld := holds_of_run hrun hsp' hS
    exact (ih hsp' ht').step hs (ht _ List.mem_cons_self) hheld

theorem writes_of_run {s s' : KvSwarm ν α} (h : Run KvSwarm.step s past s')
    (hsp : ∀ x ∈ past, Spares key x.1 x.2) (hw : Writes q key e s) : Writes q key e s' :=
  h.invariant (I := fun t => Writes q key e t) hsp hw (fun _ _ _ ht hc hs => ht.step hs hc)

end KvSwarm

section
omit [LinearOrder ν]

theorem KVStore.quorumPutEntry_live (kv : KVStore ν α) (st : NodeStore ν α) (key : Str)
    (value : KvValue α) (clock : ℕ → ℚ) :
    (kv.quorumPutEntry st key value clock).value = value ∧
      (kv.quorumPutEntry st key value clock).deleted = false :=
  ⟨rfl, rfl⟩

end

/-- A `quorum_get` with `w + r > N` that starts after `quorum_put` returned at least `w` and that
collects answers of at least `r` nodes returns the value and leaves it in the reader's store. -/
theorem quorum_read_your_writes [Fintype ν] {s₀ s₁ s₂ s₃ s₄ s₅ s₆ s₇ : KvSwarm ν α}
    {kv kv' : KVStore ν α} {e : Entry ℚ ν (KvValue α)} {w r : ℤ}
    (h₀ : Run KvSwarm.step KvSwarm.init past₀ s₀)
    (hkv : (s₀.node n).kvs[j]? = some kv)
    (hput : s₀.step (.quorumPut n j key v w ttl peers now clock) = some s₁)
    (he : e = kv.quorumPutEntry (s₀.node n).store key v clock)
    (h₁ : Run KvSwarm.step s₁ past₁ s₂)
    (hc : (s₂.node n).calls[i]? = some c) (hreq : c.req = (n, (s₀.node n).nextReq))
    (hdone : s₂.step (.finish n i) = some s₃) (hw : w ≤ (s₂.node n).ackCount c)
    (h₂ : Run KvSwarm.step s₃ past₂ s₄)
    (hkv' : (s₄.node m).kvs[j']? = some kv') (hkey : kv'.k key' = kv.k key)
    (hget : s₄.step (.quorumGet m j' key' r peers') = some s₅)
    (h₃ : Run KvSwarm.step s₅ past₃ s₆)
    (hc' : (s₆.node m).calls[i']? = some c') (hreq' : c'.req = (m, (s₄.node m).nextReq))
    (hdone' : s₆.step (.finish m i') = some s₇)
    (hr : r ≤ (((s₆.node m).collected c').map Prod.fst).toFinset.card)
    (hwr : (Fintype.card ν : ℤ) < w + r)
    (hone : ∀ x ∈ past₁ ++ past₀, x.1.OneStore x.2)
    (hmax : ∀ t, Visited past₁ s₂ t ∨ Visited past₂ s₄ t ∨ Visited past₃ s₆ t →
      ∀ k x, (t.node k).store.data.get (kv.k key) = some x → x = e ∨ x.version < e.version)
    (hlast : ∀ p ∈ s₆.written.drop s₁.written.length, p.1 ≠ kv.k key) :
    (s₆.node m).answer c' = v ∧ (s₇.node m).store.data.get (kv.k key) = some e := by
  have hall := ((((h₁.next hdone).append h₂).next hget).append h₃)
  have hsp := KvSwarm.spares_of_run hall hlast
  have hsp₁ : ∀ x ∈ past₁, KvSwarm.Spares (kv.k key) x.1 x.2 := fun x hx => hsp x (by simp [hx])
  have hsp₂ : ∀ x ∈ past₂, KvSwarm.Spares (kv.k key) x.1 x.2 := fun x hx => hsp x (by simp [hx])
  have hsp₃ : ∀ x ∈ past₃, KvSwarm.Spares (kv.k key) x.1 x.2 := fun x hx => hsp x (by simp [hx])
  have hrun₁ := (h₀.next hput).append h₁
  have hok : s₂.Ok := by
    apply KvSwarm.Ok.of_run hrun₁
    intro x hx
    rcases List.mem_append.1 hx with hx₁ | hx₀
    · exact KvSwarm.meets_of_run hrun₁ hx (hone x (List.mem_append_left _ hx₁))
    · rcases List.mem_cons.1 hx₀ with rfl | hx₀
      · trivial
      · exact KvSwarm.meets_of_run hrun₁ hx (hone x (List.mem_append_right _ hx₀))
  have hwrites : KvSwarm.Writes (n, (s₀.node n).nextReq) (kv.k key) e s₂ := by
    apply KvSwarm.writes_of_run h₁ hsp₁
    rw [he]
    exact KvSwarm.writes_start (.of_run h₀) hkv hput
  obtain ⟨S, hcard, hS₂⟩ :=
    KvSwarm.exists_write_quorum hok hwrites (List.mem_of_getElem? hc) hreq
  have hS₃ : ∀ k ∈ S, s₃.Holds k (kv.k key) e.version := fun k hk =>
    (hS₂ k hk).step hdone (hsp (s₂, .finish n i) (by simp))
  have hS₄ := KvSwarm.holds_of_run h₂ hsp₂ hS₃
  have hS₅ : ∀ k ∈ S, s₅.Holds k (kv.k key) e.version := fun k hk =>
    (hS₄ k hk).step hget (hsp (s₄, _) (by simp))
  have hreads₅ : KvSwarm.Reads c'.req (kv.k key) e S s₅ := by
    rw [hreq', ← hkey]
    have hfresh := KvSwarm.Fresh.of_run ((hrun₁.next hdone).append h₂)
    apply KvSwarm.reads_start hfresh hkv' ?_ ?_ hget
    · rw [hkey]
      exact hmax s₄ (.inr (.inl (.inl rfl)))
    · rw [hkey]
      exact hS₄
  have hreads := KvSwarm.reads_of_run h₃ hsp₃
    (fun x hx => hmax x.1 (.inr (.inr (.inr ⟨x.2, hx⟩)))) hS₅ hreads₅
  have hex : ∃ p ∈ (s₆.node m).collected c', p.1 ∈ S := by
    have hlt : (Finset.univ : Finset ν).card <
        S.card + (((s₆.node m).collected c').map Prod.fst).toFinset.card := by
      rw [Finset.card_univ]
      omega
    obtain ⟨k, hk⟩ := Finset.inter_nonempty_of_card_lt_card_add_card
      (Finset.subset_univ _) (Finset.subset_univ _) hlt
    rw [Finset.mem_inter, List.mem_toFinset, List.mem_map] at hk
    obtain ⟨hkS, p, hp, rfl⟩ := hk
    exact ⟨p, hp, hkS⟩
  obtain ⟨hbest, hheld⟩ := hreads.finish (hmax s₆ (.inr (.inr (.inl rfl)))) hc' hex hdone'
  refine ⟨?_, hheld⟩
  obtain ⟨hvalue, hlive⟩ := kv.quorumPutEntry_live (s₀.node n).store key v clock
  rw [← he] at hvalue hlive
  simp [KvNode.answer, hbest, hvalue, hlive]

/-- Every entry held for `kv/x` is the one that the writer of `readAfterWrite` wrote, or older. -/
def OldOrWritten (s : KvSwarm (Fin 3) ℕ) : Prop :=
  ∀ n, ∀ x ∈ (s.node n).store.data.get ['k', 'v', '/', 'x'],
    x = ⟨.data 7, ⟨5, 0⟩, false⟩ ∨ x.version < ⟨5, 0⟩

instance (s : KvSwarm (Fin 3) ℕ) : Decidable (OldOrWritten s) :=
  inferInstanceAs (Decidable (∀ n, ∀ x ∈ (s.node n).store.data.get ['k', 'v', '/', 'x'],
    x = ⟨.data 7, ⟨5, 0⟩, false⟩ ∨ x.version < ⟨5, 0⟩))

/-- Node 0 writes to itself and node 1; then node 2 reads from itself and node 1. -/
theorem quorum_read_your_writes_two_of_three :
    ∃ past, ∃ s s' : KvSwarm (Fin 3) ℕ, ∃ c, Run KvSwarm.step KvSwarm.init past s ∧
      (s.node 2).calls[0]? = some c ∧ s.step (.finish 2 0) = some s' ∧
      (s.node 2).answer c = .data 7 ∧
      (s'.node 2).store.data.get ['k', 'v', '/', 'x'] = some ⟨.data 7, ⟨5, 0⟩, false⟩ := by
  have hex : (do
      let s₀ ← execWhere KvSwarm.step KvSwarm.OneStore (KvSwarm.init : KvSwarm (Fin 3) ℕ)
        [.create 0 ['k', 'v', '/'], .create 1 ['k', 'v', '/'], .create 2 ['k', 'v', '/']]
      let kv ← (s₀.node 0).kvs[0]?
      let s₁ ← s₀.step (.quorumPut 0 0 ['x'] (.data 7) 2 none [1, 2] 5 (fun _ => 5))
      let s₂ ← execWhere KvSwarm.step (fun s a => s.OneStore a ∧ OldOrWritten s) s₁
        [.send 0 0, .deliver 1 0, .handle 1 0, .deliver 0 1, .handle 0 0]
      let c ← (s₂.node 0).calls[0]?
      let s₃ ← s₂.step (.finish 0 0)
      let kv' ← (s₃.node 2).kvs[0]?
      let s₅ ← s₃.step (.quorumGet 2 0 ['x'] 2 [1, 0])
      let s₆ ← execWhere KvSwarm.step (fun s _ => OldOrWritten s) s₅
        [.send 2 0, .deliver 1 2, .handle 1 1, .deliver 2 3, .handle 2 0]
      let c' ← (s₆.node 2).calls[0]?
      let s₇ ← s₆.step (.finish 2 0)
      if kv.k ['x'] = ['k', 'v', '/', 'x'] ∧ kv'.k ['x'] = ['k', 'v', '/', 'x'] ∧
        kv.quorumPutEntry (s₀.node 0).store ['x'] (.data 7) (fun _ => 5) =
          ⟨.data 7, ⟨5, 0⟩, false⟩ ∧
        c.req = (0, (s₀.node 0).nextReq) ∧ (s₂.node 0).ackCount c = 2 ∧
        c'.req = (2, (s₃.node 2).nextReq) ∧
        (((s₆.node 2).collected c').map Prod.fst).toFinset.card = 2 ∧
        OldOrWritten s₂ ∧ OldOrWritten s₃ ∧ OldOrWritten s₆ ∧
        s₆.written.drop s₁.written.length = [] then some () else none) = some () := by
    decide
  obtain ⟨s₀, hs₀, hex⟩ := Option.bind_eq_some_iff.1 hex
  obtain ⟨kv, hkv, hex⟩ := Option.bind_eq_some_iff.1 hex
  obtain ⟨s₁, hput, hex⟩ := Option.bind_eq_some_iff.1 hex
  obtain ⟨s₂, hs₂, hex⟩ := Option.bind_eq_some_iff.1 hex
  obtain ⟨c, hc, hex⟩ := Option.bind_eq_some_iff.1 hex
  obtain ⟨s₃, hdone, hex⟩ := Option.bind_eq_some_iff.1 hex
  obtain ⟨kv', hkv', hex⟩ := Option.bind_eq_some_iff.1 hex
  obtain ⟨s₅, hget, hex⟩ := Option.bind_eq_some_iff.1 hex
  obtain ⟨s₆, hs₆, hex⟩ := Option.bind_eq_some_iff.1 hex
  obtain ⟨c', hc', hex⟩ := Option.bind_eq_some_iff.1 hex
  obtain ⟨s₇, hdone', hex⟩ := Option.bind_eq_some_iff.1 hex
  split at hex
  · rename_i hobs
    obtain ⟨hk, hk', he, hreq, hacks, hreq', hcard, ht₂, ht₃, ht₆, hlast⟩ := hobs
    obtain ⟨past₀, h₀, hone₀⟩ := Run.start.execWhere (fun x hx => by cases hx) hs₀
    obtain ⟨past₁, h₁, hone₁⟩ := Run.start.execWhere (fun x hx => by cases hx) hs₂
    obtain ⟨past₃, h₃, hone₃⟩ := Run.start.execWhere (fun x hx => by cases hx) hs₆
    have hread := quorum_read_your_writes h₀ hkv hput he.symm h₁ hc hreq hdone
      (by rw [hacks]; decide) .start hkv' (by rw [hk, hk']) hget h₃ hc' hreq' hdone'
      (by rw [hcard]; decide) (by decide)
      (fun x hx => by
        rcases List.mem_append.1 hx with hx | hx
        · exact (hone₁ x hx).1
        · exact hone₀ x hx)
      (fun t ht => by
        rw [hk]
        rcases ht with (rfl | ⟨a, ha⟩) | (rfl | ⟨a, ha⟩) | (rfl | ⟨a, ha⟩)
        · exact ht₂
        · exact (hone₁ _ ha).2
        · exact ht₃
        · cases ha
        · exact ht₆
        · exact hone₃ _ ha)
      (by rw [hlast]; exact fun p hp => by cases hp)
    rw [hk] at hread
    have hrun := ((((h₀.next hput).append h₁).next hdone).next hget).append h₃
    exact ⟨_, s₆, s₇, c', hrun, hc', hdone', hread⟩
  · cases hex

end Suprime
