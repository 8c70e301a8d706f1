import Suprime.KvReads

namespace Suprime
set_option autoImplicit true

variable {ν α : Type} [LinearOrder ν] [DecidableEq α]

/-- A reply with an entry as new as `v`. The others come from stale replicas. -/
def AsNew (v : Version ℚ ν) (x : Option (EntryData ℚ ν (KvValue α))) : Prop :=
  ∃ d, x = some d ∧ v ≤ (Entry.fromDict d).version

instance (v : Version ℚ ν) :
    (x : Option (EntryData ℚ ν (KvValue α))) → Decidable (AsNew v x)
  | none => isFalse (fun h => by obtain ⟨d, hd, _⟩ := h; cases hd)
  | some d => decidable_of_iff (v ≤ (Entry.fromDict d).version)
      ⟨fun h => ⟨d, rfl, h⟩, fun ⟨_, hd, h⟩ => by cases hd; exact h⟩

namespace KvSwarm

theorem Holds.of_run {s s' : KvSwarm ν α} (h : s.Holds m key v)
    (hr : Run KvSwarm.step s past s') (hkeep : ∀ x ∈ past, Upholds m key v x.1 x.2) :
    s'.Holds m key v :=
  hr.invariant (I := fun t => t.Holds m key v) hkeep h (fun _ _ _ ht hk hs => ht.keep hs hk)

section
omit [DecidableEq α]

theorem asNew_reply_iff {s : KvSwarm ν α} :
    AsNew v (((s.node m).store.data.get key).map Entry.toDict) ↔ s.Holds m key v := by
  constructor
  · rintro ⟨d, hd, hle⟩
    obtain ⟨e, he, rfl⟩ := Option.map_eq_some_iff.1 hd
    rw [Entry.fromDict_toDict] at hle
    exact ⟨e, he, hle⟩
  · rintro ⟨e, he, hle⟩
    exact ⟨e.toDict, by rw [he]; rfl, by rw [Entry.fromDict_toDict]; exact hle⟩

end

/-- If `m` has replied to the request `q` with an entry as new as `v`, it still holds one. -/
structure Backs (q : ReqId ν) (key : Str) (m : ν) (v : Version ℚ ν) (s : KvSwarm ν α) : Prop where
  asks : Asks q key s
  answers : ∀ msg ∈ s.sent, ∀ x, msg.body = .READ_RESP q x → msg.src = m → AsNew v x →
    s.Holds m key v
  collected : ∀ n x, (s.node n).Collected q (m, x) → AsNew v x → s.Holds m key v

theorem Backs.step {s s' : KvSwarm ν α} (h : Backs q key m v s) (hs : s.step a = some s')
    (hkeep : Upholds m key v s a) : Backs q key m v s' where
  asks := h.asks.step hs
  answers msg hm x hb hsrc hx := by
    apply Holds.keep ?_ hs hkeep
    rcases h.asks.answer_step hs hm hb with hm | rfl
    · exact h.answers msg hm x hb hsrc hx
    · rw [hsrc] at hx
      exact asNew_reply_iff.1 hx
  collected n x hc hx := by
    apply Holds.keep ?_ hs hkeep
    rcases h.asks.collected_step hs hc with hc | ⟨msg, hm, hb, hsrc⟩
    · exact h.collected n x hc hx
    · exact h.answers msg hm x hb hsrc hx

/-- A call of `quorum_get` starts with the reply of its own node, which holds what it replies. -/
theorem backs_start {s s' : KvSwarm ν α} (hf : s.Fresh) (hkv : (s.node n).kvs[j]? = some kv)
    (hs : s.step (.quorumGet n j key r peers) = some s') (m : ν) (v : Version ℚ ν) :
    Backs (n, (s.node n).nextReq) (kv.k key) m v s' := by
  obtain ⟨hasks, hsent, hown⟩ := asks_start hf hkv hs
  refine ⟨hasks, ?_, ?_⟩
  · exact fun msg hm x hb => absurd hb (hsent msg hm x)
  · intro k x hc hx
    obtain ⟨rfl, rfl⟩ := Prod.mk.inj (hown k (m, x) hc)
    apply Holds.step (asNew_reply_iff.1 hx) hs
    intro s'' hs'' p hp
    obtain ⟨kv', -, hs''⟩ := Option.bind_eq_some_iff.1 hs''
    split at hs''
    · cases hs''
      rw [show (call _ _ _ _ _).written = s.written from rfl, List.drop_length] at hp
      cases hp
    · cases hs''

theorem Backs.of_run {s s' : KvSwarm ν α} (h : Backs q key m v s)
    (hr : Run KvSwarm.step s past s') (hkeep : ∀ x ∈ past, Upholds m key v x.1 x.2) :
    Backs q key m v s' :=
  hr.invariant (I := fun t => Backs q key m v t) hkeep h (fun _ _ _ ht hk hs => ht.step hs hk)

/-- Read repair leaves the reader with an entry as new as each reply, and changes no other store. -/
theorem finish_repairs {s s' : KvSwarm ν α} (hc : (s.node n).calls[i]? = some c)
    (hw : c.wrote = none) (hs : s.step (.finish n i) = some s') :
    (∀ p ∈ (s.node n).collected c, ∀ d, p.2 = some d →
      s'.Holds n c.key (Entry.fromDict d).version) ∧
      ∀ m, m ≠ n → (s'.node m).store = (s.node m).store := by
  refine ⟨?_, (storeStep_node hs).1⟩
  obtain ⟨c', hc', hs⟩ := Option.bind_eq_some_iff.1 hs
  rw [hc] at hc'
  cases hc'
  split at hs
  · cases hs
    intro p hp d hd
    obtain ⟨b, hb, hle⟩ := (isNewest_bestOf _).le ⟨p, hp, by rw [hd]; rfl⟩
    simp only [Holds, KvSwarm.finish, hw, setNode, Function.update_self, KvNode.repaired, hb]
    rw [DistributedStore.get_mergeEntry, if_pos rfl]
    exact ⟨_, rfl, hle.trans (le_newer _ _ _)⟩
  · cases hs

/-- The messages of the request `q` have been delivered, and every `KVStore` has handled them. -/
def Delivered (s : KvSwarm ν α) (q : ReqId ν) : Prop :=
  ∀ p ∈ s.sent.zipIdx, p.1.body.req = q →
    ∃ x ∈ (s.node p.1.dst).inbox, x.1 = p.2 ∧ (s.node p.1.dst).kvs.length ≤ x.2

/-- Every node that replied holds an entry as new as each of the replies. -/
def Healed (s : KvSwarm ν α) (key : Str) (l : List (ν × Option (EntryData ℚ ν (KvValue α)))) :
    Prop :=
  ∀ p ∈ l, ∀ p' ∈ l, ∀ d ∈ p'.2, s.Holds p.1 key (Entry.fromDict d).version

/-- Every stale replica that replied to `n` has received an entry as new as the replies. -/
def CaughtUp (s : KvSwarm ν α) (n : ν) (key : Str)
    (l : List (ν × Option (EntryData ℚ ν (KvValue α)))) : Prop :=
  ∀ p ∈ l, p.1 ≠ n → ∀ p' ∈ l, ∀ d ∈ p'.2, ¬ AsNew (Entry.fromDict d).version p.2 →
    s.Holds p.1 key (Entry.fromDict d).version

/-- No node that replied writes an entry older than a reply while it holds one as new. -/
def UpholdsReplies (key : Str) (l : List (ν × Option (EntryData ℚ ν (KvValue α))))
    (s : KvSwarm ν α) (a : KvAction ν α) : Prop :=
  ∀ p ∈ l, ∀ p' ∈ l, ∀ d ∈ p'.2, Upholds p.1 key (Entry.fromDict d).version s a

/-- The nodes that replied to a `quorum_get` hold the newest of the replies from its return on, as
soon as the stale ones have received it by then and none of them writes an older entry. A call whose
messages are delivered when it returns needs the former. -/
theorem read_heals_of_caughtUp {s₀ s₁ u s₂ s : KvSwarm ν α} {kv : KVStore ν α}
    (h₀ : Run KvSwarm.step KvSwarm.init past₀ s₀) (hkv : (s₀.node n).kvs[j]? = some kv)
    (hget : s₀.step (.quorumGet n j key r peers) = some s₁)
    (h₁ : Run KvSwarm.step s₁ past₁ u) (hc : (u.node n).calls[i]? = some c)
    (hreq : c.req = (n, (s₀.node n).nextReq)) (hdone : u.step (.finish n i) = some s₂)
    (h₂ : Run KvSwarm.step s₂ past₂ s) :
    (CaughtUp u n (kv.k key) ((u.node n).collected c) →
      (∀ x ∈ past₂ ++ (u, .finish n i) :: past₁,
        UpholdsReplies (kv.k key) ((u.node n).collected c) x.1 x.2) →
      ∀ t, Visited past₂ s t → t.Healed (kv.k key) ((u.node n).collected c)) ∧
    (s₂.Delivered c.req → (∀ t, Visited past₂ s t → t.Delivered c.req →
        t.Healed (kv.k key) ((u.node n).collected c)) →
      CaughtUp u n (kv.k key) ((u.node n).collected c)) := by
  have hback := fun m v => backs_start (Fresh.of_run h₀) hkv hget m v
  rw [← hreq] at hback
  have hasks := (asks_start (Fresh.of_run h₀) hkv hget).1.of_run h₁
  have hkey := hasks.calls n c (List.mem_of_getElem? hc) hreq
  obtain ⟨hreader, hothers⟩ := finish_repairs hc hkey.2 hdone
  rw [hkey.1] at hreader
  constructor
  · intro hcaught hup t ht p hp p' hp' d hd
    have hup' : ∀ x ∈ past₂ ++ (u, .finish n i) :: past₁,
        Upholds p.1 (kv.k key) (Entry.fromDict d).version x.1 x.2 :=
      fun x hx => hup x hx p hp p' hp' d hd
    have hreturn : s₂.Holds p.1 (kv.k key) (Entry.fromDict d).version := by
      by_cases hn : p.1 = n
      · rw [hn]
        exact hreader p' hp' d hd
      · have hheld : u.Holds p.1 (kv.k key) (Entry.fromDict d).version := by
          by_cases hnew : AsNew (Entry.fromDict d).version p.2
          · have hbacks := (hback p.1 (Entry.fromDict d).version).of_run h₁
              (fun x hx => hup' x (by simp [hx]))
            exact hbacks.collected n p.2 (collected_of_mem hp) hnew
          · exact hcaught p hp hn p' hp' d hd hnew
        exact hheld.keep hdone (hup' (u, .finish n i) (by simp))
    obtain ⟨pre, hpre, hsub⟩ := h₂.of_visited ht
    exact hreturn.of_run hpre (fun x hx => hup' x (List.mem_append_left _ (hsub hx)))
  · intro hdel hheals p hp hn p' hp' d hd _
    obtain ⟨e, he, hle⟩ := hheals s₂ h₂.visited_start hdel p hp p' hp' d hd
    rw [hothers p.1 hn] at he
    exact ⟨e, he, hle⟩

instance (s : KvSwarm ν α) (m : ν) (key : Str) (v : Version ℚ ν) : Decidable (s.Holds m key v) :=
  decidable_of_iff _ asNew_reply_iff

instance (m : ν) (key : Str) (v : Version ℚ ν) (s : KvSwarm ν α) (a : KvAction ν α) :
    Decidable (Upholds m key v s a) :=
  inferInstanceAs (Decidable (a.node = m → s.Holds m key v → ∀ s' ∈ s.step a,
    ∀ p ∈ s'.written.drop s.written.length, p.1 = key → v ≤ p.2.version))

instance (s : KvSwarm ν α) (q : ReqId ν) : Decidable (s.Delivered q) :=
  inferInstanceAs (Decidable (∀ p ∈ s.sent.zipIdx, p.1.body.req = q →
    ∃ x ∈ (s.node p.1.dst).inbox, x.1 = p.2 ∧ (s.node p.1.dst).kvs.length ≤ x.2))

instance (s : KvSwarm ν α) (key : Str) (l : List (ν × Option (EntryData ℚ ν (KvValue α)))) :
    Decidable (s.Healed key l) :=
  inferInstanceAs (Decidable (∀ p ∈ l, ∀ p' ∈ l, ∀ d ∈ p'.2,
    s.Holds p.1 key (Entry.fromDict d).version))

instance (s : KvSwarm ν α) (n : ν) (key : Str)
    (l : List (ν × Option (EntryData ℚ ν (KvValue α)))) : Decidable (s.CaughtUp n key l) :=
  inferInstanceAs (Decidable (∀ p ∈ l, p.1 ≠ n → ∀ p' ∈ l, ∀ d ∈ p'.2,
    ¬ AsNew (Entry.fromDict d).version p.2 → s.Holds p.1 key (Entry.fromDict d).version))

instance (key : Str) (l : List (ν × Option (EntryData ℚ ν (KvValue α)))) (s : KvSwarm ν α)
    (a : KvAction ν α) : Decidable (UpholdsReplies key l s a) :=
  inferInstanceAs (Decidable (∀ p ∈ l, ∀ p' ∈ l, ∀ d ∈ p'.2,
    Upholds p.1 key (Entry.fromDict d).version s a))

/-- A reader without the value reads it from another node, which writes again afterwards. -/
theorem read_heals_stale_reader : ∃ past, ∃ s u : KvSwarm (Fin 2) ℕ, ∃ c,
    Run KvSwarm.step KvSwarm.init past s ∧ (u, .finish 0 0) ∈ past ∧
      (u.node 0).calls[0]? = some c ∧
      ((u.node 0).collected c).map (fun p => p.2.isSome) = [false, true] ∧
      s.Delivered c.req ∧ s.Healed ['k', 'v', '/', 'x'] ((u.node 0).collected c) := by
  have hex : (do
      let s₀ ← exec KvSwarm.step (KvSwarm.init : KvSwarm (Fin 2) ℕ)
        [.create 0 ['k', 'v'], .create 1 ['k', 'v'],
          .put 1 0 ['x'] (.data 7) none 5 (fun _ => 5)]
      let kv ← (s₀.node 0).kvs[0]?
      let s₁ ← s₀.step (.quorumGet 0 0 ['x'] 2 [1])
      let u ← execWhere KvSwarm.step
        (fun s a => ∀ m, Upholds m ['k', 'v', '/', 'x'] ⟨5, 1⟩ s a) s₁
        [.send 0 0, .deliver 1 0, .handle 1 0, .deliver 0 1, .handle 0 0]
      let c ← (u.node 0).calls[0]?
      let s₂ ← u.step (.finish 0 0)
      let s ← execWhere KvSwarm.step
        (fun s a => ∀ m, Upholds m ['k', 'v', '/', 'x'] ⟨5, 1⟩ s a) s₂
        [.put 1 0 ['x'] (.data 8) none 9 (fun _ => 9)]
      if kv.k ['x'] = ['k', 'v', '/', 'x'] ∧ c.req = (0, (s₀.node 0).nextReq) ∧
        (∀ m, Upholds m ['k', 'v', '/', 'x'] ⟨5, 1⟩ u (.finish 0 0)) ∧
        (∀ p ∈ (u.node 0).collected c, ∀ d ∈ p.2, (Entry.fromDict d).version = ⟨5, 1⟩) ∧
        u.CaughtUp 0 ['k', 'v', '/', 'x'] ((u.node 0).collected c) ∧
        ((u.node 0).collected c).map (fun p => p.2.isSome) = [false, true] ∧
        s.Delivered c.req then some () else none) = some () := by
    decide +kernel
  obtain ⟨s₀, hs₀, hex⟩ := Option.bind_eq_some_iff.1 hex
  obtain ⟨kv, hkv, hex⟩ := Option.bind_eq_some_iff.1 hex
  obtain ⟨s₁, hget, hex⟩ := Option.bind_eq_some_iff.1 hex
  obtain ⟨u, hu, hex⟩ := Option.bind_eq_some_iff.1 hex
  obtain ⟨c, hc, hex⟩ := Option.bind_eq_some_iff.1 hex
  obtain ⟨s₂, hdone, hex⟩ := Option.bind_eq_some_iff.1 hex
  obtain ⟨s, hs, hex⟩ := Option.bind_eq_some_iff.1 hex
  split at hex
  · rename_i hobs
    obtain ⟨hk, hreq, hfin, hver, hcaught, hmap, hdel⟩ := hobs
    have h₀ := Run.start.exec hs₀
    obtain ⟨past₁, h₁, hup₁⟩ := Run.start.execWhere (fun x hx => by cases hx) hu
    obtain ⟨past₂, h₂, hup₂⟩ := Run.start.execWhere (fun x hx => by cases hx) hs
    have hheals := (read_heals_of_caughtUp h₀ hkv hget h₁ hc hreq hdone h₂).1
    rw [hk] at hheals
    refine ⟨_, s, u, c, (((h₀.next hget).append h₁).next hdone).append h₂, ?_, hc, hmap, hdel, ?_⟩
    · exact List.mem_append_right _ List.mem_cons_self
    · refine hheals hcaught (fun x hx p _ p' hp' d hd => ?_) s (.inl rfl)
      rw [hver p' hp' d hd]
      rcases List.mem_append.1 hx with hx | hx
      · exact hup₂ x hx p.1
      · rcases List.mem_cons.1 hx with rfl | hx
        · exact hfin p.1
        · exact hup₁ x hx p.1
  · cases hex

/-- The reader has the value that it reads from another node, which has none. -/
def staleRead : List (KvAction (Fin 2) ℕ) :=
  [.create 0 ['k', 'v'], .create 1 ['k', 'v'], .put 0 0 ['x'] (.data 7) none 5 (fun _ => 5),
    .quorumGet 0 0 ['x'] 2 [1], .send 0 0, .deliver 1 0, .handle 1 0, .deliver 0 1, .handle 0 0]

theorem stale_replica_stays : ¬ ∀ past (s : KvSwarm (Fin 2) ℕ),
    Run KvSwarm.step KvSwarm.init past s → ∀ u n i c, (u, .finish n i) ∈ past →
      (u.node n).calls[i]? = some c → c.wrote = none → s.Delivered c.req →
        s.Healed c.key ((u.node n).collected c) := by
  intro hclaim
  have hread : ∃ past, ∃ u : KvSwarm (Fin 2) ℕ, Run KvSwarm.step KvSwarm.init past u ∧
      (u.node 0).calls[0]?.bind (fun c => (u.step (.finish 0 0)).map (fun s =>
        (c.wrote.isNone, decide (s.Delivered c.req),
          decide (s.Healed c.key ((u.node 0).collected c))))) = some (true, true, false) :=
    exists_run_of_exec KvSwarm.step KvSwarm.init staleRead _ _ (by decide +kernel)
  obtain ⟨past, u, hrun, hread⟩ := hread
  obtain ⟨c, hc, hread⟩ := Option.bind_eq_some_iff.1 hread
  obtain ⟨s, hs, hread⟩ := Option.map_eq_some_iff.1 hread
  simp only [Prod.mk.injEq, Option.isNone_iff_eq_none, decide_eq_true_eq,
    decide_eq_false_iff_not] at hread
  obtain ⟨hwrote, hdel, hstale⟩ := hread
  exact hstale (hclaim _ s (hrun.next hs) u 0 0 c List.mem_cons_self hc hwrote hdel)

end KvSwarm

end Suprime
