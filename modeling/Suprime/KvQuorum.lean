import Mathlib.Data.Fintype.Card
import Mathlib.Data.List.Flatten
import Suprime.Counting
import Suprime.KvSwarm

namespace Suprime
set_option autoImplicit true

variable {ν α : Type} [LinearOrder ν] [DecidableEq α]

def isWriteReq (q : ReqId ν) (m : ν) (msg : KvMessage ν α) : Bool :=
  match msg.body with
  | .WRITE_REQ r _ _ => r = q ∧ msg.dst = m
  | _ => false

def isWriteResp (q : ReqId ν) (msg : KvMessage ν α) : Bool :=
  match msg.body with
  | .WRITE_RESP r => r = q
  | _ => false

/-- Messages that the node itself sent in answer to a write request. -/
def isWriteRespBy (q : ReqId ν) (m : ν) (msg : KvMessage ν α) : Bool :=
  isWriteResp q msg && (msg.src = m)

section
omit [DecidableEq α]

theorem isWriteReq_iff {msg : KvMessage ν α} :
    isWriteReq q m msg = true ↔ msg.dst = m ∧ ∃ key e, msg.body = .WRITE_REQ q key e := by
  unfold isWriteReq
  cases hb : msg.body with
  | WRITE_REQ r key e => simp [and_comm]
  | READ_REQ r key => simp
  | READ_RESP r e => simp
  | WRITE_RESP r => simp

theorem isWriteResp_iff {msg : KvMessage ν α} :
    isWriteResp q msg = true ↔ msg.body = .WRITE_RESP q := by
  unfold isWriteResp
  cases hb : msg.body with
  | WRITE_RESP r => simp
  | READ_REQ r key => simp
  | READ_RESP r e => simp
  | WRITE_REQ r key e => simp

end

/-- What a node keeps of the requests of its calls and of the messages it handles. -/
structure KvNode.Ok (sent : List (KvMessage ν α)) (delivered : List ℕ) (n : ν)
    (nd : KvNode ν α) : Prop where
  ids : (nd.inbox.map Prod.fst).Nodup
  taken : ∀ p ∈ nd.inbox, p.1 ∈ delivered ∧ ∃ msg, sent[p.1]? = some msg ∧ msg.dst = n
  reqs : (nd.calls.map KvCall.req).Nodup
  calls : ∀ c ∈ nd.calls, c.req.1 = n ∧ c.req.2 < nd.nextReq ∧ n ∉ c.targets
  agrees : ∀ c ∈ nd.calls, ∀ msg ∈ sent, ∀ key e, msg.body = .WRITE_REQ c.req key e →
    key = c.key ∧ c.wrote.map Entry.toDict = some e
  acks : ∀ j kv q a, nd.kvs[j]? = some kv → kv.pending.get q = some (.acks a) →
    a ≤ nd.inbox.countP (fun p => holdsAt sent (isWriteResp q) p.1 && decide (j < p.2))

/-- The targets to which a request has not been sent yet. -/
def KvNode.openTargets (nd : KvNode ν α) (q : ReqId ν) : List ν :=
  nd.calls.flatMap (fun c => if c.req = q then c.targets else [])

/-- A node has no pending calls but those that it had before. -/
def KvNode.PendingFrom (nd nd' : KvNode ν α) : Prop :=
  ∀ (j : ℕ) (kv' : KVStore ν α) q p, nd'.kvs[j]? = some kv' → kv'.pending.get q = some p →
    ∃ kv : KVStore ν α, nd.kvs[j]? = some kv ∧ kv.pending.get q = some p

namespace KvSwarm

/-- What every run keeps in which no message is handled twice by the same handler and write
requests are handled by one `KVStore` of their node. -/
structure Ok (s : KvSwarm ν α) : Prop where
  node : ∀ n, (s.node n).Ok s.sent (s.delivered n) n
  fresh : ∀ msg ∈ s.sent, ∀ q key e, msg.body = .WRITE_REQ q key e →
    q.2 < (s.node q.1).nextReq ∧ msg.dst ≠ q.1
  requests : ∀ q m, s.sent.countP (isWriteReq q m) + ((s.node q.1).openTargets q).count m ≤ 1
  replies : ∀ q m, s.sent.countP (isWriteRespBy q m) ≤
    (s.node m).inbox.countP (fun p => holdsAt s.sent (isWriteReq q m) p.1 && decide (0 < p.2))

/-- A step that leaves the messages alone and at most ends calls. -/
structure Quiet (s s' : KvSwarm ν α) : Prop where
  sent : s'.sent = s.sent
  delivered : s'.delivered = s.delivered
  inbox : ∀ n, (s'.node n).inbox = (s.node n).inbox
  calls : ∀ n, (s'.node n).calls.Sublist (s.node n).calls
  nextReq : ∀ n, (s'.node n).nextReq = (s.node n).nextReq
  pending : ∀ n, (s.node n).PendingFrom (s'.node n)

section
omit [DecidableEq α]

theorem Quiet.refl (s : KvSwarm ν α) : Quiet s s where
  sent := rfl
  delivered := rfl
  inbox _ := rfl
  calls _ := .refl _
  nextReq _ := rfl
  pending _ _ kv' _ _ hkv hp := ⟨kv', hkv, hp⟩

theorem openTargets_sublist {nd nd' : KvNode ν α} (h : nd'.calls.Sublist nd.calls)
    (q : ReqId ν) : (nd'.openTargets q).Sublist (nd.openTargets q) :=
  h.flatMap _

theorem Ok.quiet {s s' : KvSwarm ν α} (h : s.Ok) (hq : Quiet s s') : s'.Ok where
  node n := by
    obtain ⟨hids, htaken, hreqs, hcalls, hagrees, hacks⟩ := h.node n
    have hmem : ∀ c ∈ (s'.node n).calls, c ∈ (s.node n).calls := (hq.calls n).subset
    constructor
    · rw [hq.inbox]
      exact hids
    · rw [hq.inbox, hq.sent, hq.delivered]
      exact htaken
    · exact ((hq.calls n).map _).nodup hreqs
    · rw [hq.nextReq]
      exact fun c hc => hcalls c (hmem c hc)
    · rw [hq.sent]
      exact fun c hc => hagrees c (hmem c hc)
    · intro j kv' q a hkv hp
      rw [hq.inbox, hq.sent]
      obtain ⟨kv, hkv, hp⟩ := hq.pending n j kv' q _ hkv hp
      exact hacks j kv q a hkv hp
  fresh := by
    rw [hq.sent]
    intro msg hmsg q key e hb
    rw [hq.nextReq]
    exact h.fresh msg hmsg q key e hb
  requests q m := by
    rw [hq.sent]
    have hle := (openTargets_sublist (hq.calls q.1) q).count_le m
    have hreq := h.requests q m
    omega
  replies q m := by
    rw [hq.sent, hq.inbox]
    exact h.replies q m

theorem quiet_setNode {s : KvSwarm ν α} {nd : KvNode ν α}
    (hi : nd.inbox = (s.node n).inbox) (hc : nd.calls.Sublist (s.node n).calls)
    (hr : nd.nextReq = (s.node n).nextReq)
    (hp : (s.node n).PendingFrom nd) :
    Quiet s (s.setNode n nd) where
  sent := rfl
  delivered := rfl
  inbox m := by
    by_cases hm : m = n
    · subst hm
      simpa [setNode] using hi
    · simp [setNode, hm]
  calls m := by
    by_cases hm : m = n
    · subst hm
      simpa [setNode] using hc
    · simp [setNode, hm]
  nextReq m := by
    by_cases hm : m = n
    · subst hm
      simpa [setNode] using hr
    · simp [setNode, hm]
  pending m j kv' q p hkv hpend := by
    by_cases hm : m = n
    · subst hm
      simp only [setNode, Function.update_self] at hkv
      exact hp j kv' q p hkv hpend
    · simp only [setNode, Function.update_of_ne hm] at hkv
      exact ⟨kv', hkv, hpend⟩

theorem quiet_store (s : KvSwarm ν α) (n : ν) (st : NodeStore ν α) :
    Quiet s (s.setNode n { s.node n with store := st }) :=
  quiet_setNode rfl (.refl _) rfl (fun _ kv _ _ hkv hp => ⟨kv, hkv, hp⟩)

theorem Quiet.of_eq {s s' s'' : KvSwarm ν α} (h : Quiet s s') (hn : s''.node = s'.node)
    (hs : s''.sent = s'.sent) (hd : s''.delivered = s'.delivered) : Quiet s s'' where
  sent := hs.trans h.sent
  delivered := hd.trans h.delivered
  inbox m := by
    rw [hn]
    exact h.inbox m
  calls m := by
    rw [hn]
    exact h.calls m
  nextReq m := by
    rw [hn]
    exact h.nextReq m
  pending m := by
    rw [hn]
    exact h.pending m

theorem quiet_write (s : KvSwarm ν α) (n : ν) (ws : List (LocalWrite α)) (clock : ℕ → ℚ) :
    Quiet s (s.write n ws clock) :=
  (quiet_store s n _).of_eq rfl rfl rfl

theorem quiet_finish {s : KvSwarm ν α} (n : ν) (c : ℕ) (call : KvCall ν α) :
    Quiet s (s.finish n c call) := by
  have hforget : (s.node n).PendingFrom ((s.node n).forget c call) := by
    intro j kv' q p hkv hp
    simp only [KvNode.forget, List.getElem?_modify] at hkv
    obtain ⟨kv, hget, rfl⟩ := Option.map_eq_some_iff.1 hkv
    refine ⟨kv, hget, ?_⟩
    by_cases hj : call.inst = j
    · rw [if_pos hj] at hp
      dsimp only at hp
      rw [Dict.get_erase] at hp
      split at hp
      · cases hp
      · exact hp
    · rw [if_neg hj] at hp
      exact hp
  have hcalls := (s.node n).calls.eraseIdx_sublist c
  unfold finish
  dsimp only
  cases call.wrote with
  | some e =>
    have hq : Quiet s (s.setNode n ((s.node n).forget c call)) :=
      quiet_setNode rfl hcalls rfl hforget
    exact hq.of_eq rfl rfl rfl
  | none =>
    have hq : Quiet s (s.setNode n
        { (s.node n).forget c call with store := (s.node n).repaired call }) :=
      quiet_setNode rfl hcalls rfl hforget
    exact hq

theorem openTargets_append (nd nd' : KvNode ν α) (h : nd'.calls = nd.calls ++ [c])
    (q : ReqId ν) :
    nd'.openTargets q = nd.openTargets q ++ (if c.req = q then c.targets else []) := by
  simp [KvNode.openTargets, h]

theorem Ok.unused {s : KvSwarm ν α} (h : s.Ok) (m : ν) :
    s.sent.countP (isWriteReq (n, (s.node n).nextReq) m) = 0 ∧
      (s.node n).openTargets (n, (s.node n).nextReq) = [] := by
  constructor
  · rw [List.countP_eq_zero]
    intro msg hmsg hreq
    obtain ⟨_, key, e, hb⟩ := isWriteReq_iff.1 hreq
    have hlt := (h.fresh msg hmsg _ key e hb).1
    exact lt_irrefl _ hlt
  · unfold KvNode.openTargets
    rw [List.flatMap_eq_nil_iff]
    intro c hc
    have hlt := ((h.node n).calls c hc).2.1
    have hne : c.req ≠ (n, (s.node n).nextReq) := by
      intro he
      rw [he] at hlt
      exact lt_irrefl _ hlt
    rw [if_neg hne]

theorem Ok.call {s : KvSwarm ν α} {c : KvCall ν α} (h : s.Ok)
    (hkv : (s.node n).kvs[c.inst]? = some kv) (hreq : c.req = (n, (s.node n).nextReq))
    (hnd : c.targets.Nodup) (hn : n ∉ c.targets) (hp : p = .acks 0 ∨ ∃ l, p = .responses l) :
    (s.call n kv c p).Ok where
  node m := by
    by_cases hm : m = n
    · subst hm
      obtain ⟨hids, htaken, hreqs, hcalls, hagrees, hacks⟩ := h.node m
      simp only [KvSwarm.call, setNode, Function.update_self]
      constructor
      · exact hids
      · exact htaken
      · simp only [List.map_append, List.map_singleton]
        apply hreqs.append (List.nodup_singleton _)
        apply List.disjoint_singleton.2
        intro hmem
        obtain ⟨c', hc', he⟩ := List.mem_map.1 hmem
        have hlt := (hcalls c' hc').2.1
        rw [he, hreq] at hlt
        exact lt_irrefl _ hlt
      · intro c' hc'
        rcases List.mem_append.1 hc' with hc' | hc'
        · obtain ⟨h1, h2, h3⟩ := hcalls c' hc'
          exact ⟨h1, Nat.lt_succ_of_lt h2, h3⟩
        · rw [List.mem_singleton] at hc'
          subst hc'
          rw [hreq]
          exact ⟨rfl, Nat.lt_succ_self _, hn⟩
      · intro c' hc' msg hmsg key e hb
        rcases List.mem_append.1 hc' with hc' | hc'
        · exact hagrees c' hc' msg hmsg key e hb
        · rw [List.mem_singleton] at hc'
          subst hc'
          rw [hreq] at hb
          exact absurd (h.fresh msg hmsg _ key e hb).1 (lt_irrefl _)
      · intro j kv' q a hkv' hpend
        simp only [KvNode.setPending, KvNode.setKv, List.getElem?_set] at hkv'
        by_cases hj : c.inst = j
        · subst hj
          obtain ⟨hlt, _⟩ := List.getElem?_eq_some_iff.1 hkv
          simp only [hlt, if_true, Option.some.injEq] at hkv'
          subst hkv'
          simp only [Dict.get_set] at hpend
          split at hpend
          · rcases hp with rfl | ⟨l, rfl⟩
            · cases hpend
              exact Nat.zero_le _
            · cases hpend
          · exact hacks c.inst kv q a hkv hpend
        · rw [if_neg hj] at hkv'
          exact hacks j kv' q a hkv' hpend
    · simp only [KvSwarm.call, setNode, Function.update_of_ne hm]
      exact h.node m
  fresh msg hmsg q key e hb := by
    obtain ⟨hlt, hdst⟩ := h.fresh msg hmsg q key e hb
    refine ⟨?_, hdst⟩
    simp only [KvSwarm.call, setNode]
    by_cases hq : q.1 = n
    · rw [hq, Function.update_self]
      rw [hq] at hlt
      exact Nat.lt_succ_of_lt hlt
    · rw [Function.update_of_ne hq]
      exact hlt
  requests q m := by
    have hold := h.requests q m
    by_cases hq : q.1 = n
    · simp only [KvSwarm.call, setNode, hq, Function.update_self]
      rw [hq] at hold
      rw [openTargets_append (s.node n) _ rfl, List.count_append]
      by_cases hcq : c.req = q
      · rw [if_pos hcq]
        obtain ⟨h0, h1⟩ := h.unused (n := n) m
        rw [← hreq, hcq] at h0 h1
        rw [h0, h1, List.count_nil]
        have hle := List.nodup_iff_count_le_one.1 hnd m
        omega
      · rw [if_neg hcq, List.count_nil]
        omega
    · simp only [KvSwarm.call, setNode, Function.update_of_ne hq]
      exact hold
  replies q m := by
    have hold := h.replies q m
    by_cases hm : m = n
    · subst hm
      simp only [KvSwarm.call, setNode, Function.update_self]
      exact hold
    · simp only [KvSwarm.call, setNode, Function.update_of_ne hm]
      exact hold

end

end KvSwarm

section
omit [DecidableEq α]

/-- More messages leave a node as it is, as long as none is a request of one of its calls. -/
theorem KvNode.Ok.append_sent {nd : KvNode ν α} (h : nd.Ok sent delivered n)
    (hout : ∀ msg ∈ out, ∀ q key e, msg.body = .WRITE_REQ q key e → q.1 ≠ n) :
    nd.Ok (sent ++ out) delivered n where
  ids := h.ids
  taken p hp := by
    obtain ⟨hd, msg, hmsg, hdst⟩ := h.taken p hp
    obtain ⟨hlt, _⟩ := List.getElem?_eq_some_iff.1 hmsg
    exact ⟨hd, msg, by rw [List.getElem?_append_left hlt, hmsg], hdst⟩
  reqs := h.reqs
  calls := h.calls
  agrees c hc msg hmsg key e hb := by
    rcases List.mem_append.1 hmsg with hmsg | hmsg
    · exact h.agrees c hc msg hmsg key e hb
    · exact absurd (h.calls c hc).1 (hout msg hmsg _ key e hb)
  acks j kv q a hkv hp :=
    (h.acks j kv q a hkv hp).trans (countP_holdsAt_append out Prod.fst _)

end

namespace KvSwarm

section
omit [DecidableEq α] [LinearOrder ν]

theorem request_body {c : KvCall ν α} (h : (request n m c).body = .WRITE_REQ q key e) :
    q = c.req ∧ key = c.key ∧ c.wrote.map Entry.toDict = some e := by
  unfold request at h
  cases hw : c.wrote with
  | none =>
    rw [hw] at h
    cases h
  | some x =>
    rw [hw] at h
    cases h
    exact ⟨rfl, rfl, rfl⟩

theorem request_dst (n m : ν) (c : KvCall ν α) : (request n m c).dst = m := by
  unfold request
  split <;> rfl

end

section
omit [DecidableEq α]

theorem isWriteReq_request {c : KvCall ν α} (h : isWriteReq q k (request n m c) = true) :
    q = c.req ∧ k = m := by
  obtain ⟨hd, key, e, hb⟩ := isWriteReq_iff.1 h
  rw [request_dst] at hd
  exact ⟨(request_body hb).1, hd.symm⟩

theorem isWriteResp_request (q : ReqId ν) (n m : ν) (c : KvCall ν α) :
    isWriteResp q (request n m c) = false := by
  rw [Bool.eq_false_iff]
  intro h
  rw [isWriteResp_iff] at h
  unfold request at h
  split at h <;> cases h

theorem countP_request_le (n m : ν) (c : KvCall ν α) (q : ReqId ν) (k : ν) :
    [request n m c].countP (isWriteReq q k) ≤ if c.req = q ∧ m = k then 1 else 0 := by
  rw [List.countP_singleton]
  by_cases hreq : isWriteReq q k (request n m c) = true
  · obtain ⟨rfl, rfl⟩ := isWriteReq_request hreq
    rw [if_pos hreq, if_pos ⟨rfl, rfl⟩]
  · rw [if_neg hreq]
    exact Nat.zero_le _

theorem count_openTargets_ask {nd : KvNode ν α} {c : KvCall ν α} (hc : nd.calls[i]? = some c)
    (ht : c.targets = m :: ms) (q : ReqId ν) (k : ν) :
    (({ nd with calls := nd.calls.set i { c with targets := ms } } :
        KvNode ν α).openTargets q).count k + (if c.req = q ∧ m = k then 1 else 0) =
      (nd.openTargets q).count k := by
  have hset := count_flatMap_set (y := { c with targets := ms })
    (f := fun x : KvCall ν α => if x.req = q then x.targets else []) hc k
  unfold KvNode.openTargets
  dsimp only at hset ⊢
  by_cases hq : c.req = q
  · rw [if_pos hq, if_pos hq, ht, List.count_cons] at hset
    rw [if_congr (and_iff_right hq) rfl rfl]
    simp only [beq_iff_eq] at hset
    omega
  · rw [if_neg hq, if_neg hq] at hset
    rw [if_neg (fun he => hq he.1)]
    omega

theorem nodeOk_ask {sent : List (KvMessage ν α)} {delivered : List ℕ} {nd : KvNode ν α}
    {c : KvCall ν α} (h : nd.Ok sent delivered n) (hc : nd.calls[i]? = some c)
    (ht : c.targets = m :: ms) :
    ({ nd with calls := nd.calls.set i { c with targets := ms } } : KvNode ν α).Ok
      (sent ++ [request n m c]) delivered n := by
  obtain ⟨hids, htaken, hreqs, hcalls, hagrees, hacks⟩ := h
  have hold : ∀ x ∈ nd.calls.set i { c with targets := ms }, ∃ y ∈ nd.calls,
      x.req = y.req ∧ x.key = y.key ∧ x.wrote = y.wrote ∧ x.targets ⊆ y.targets := by
    intro x hx
    rcases List.mem_or_eq_of_mem_set hx with hx | rfl
    · exact ⟨x, hx, rfl, rfl, rfl, fun _ ha => ha⟩
    · refine ⟨c, List.mem_of_getElem? hc, rfl, rfl, rfl, ?_⟩
      rw [ht]
      exact List.subset_cons_self _ _
  constructor
  · exact hids
  · intro p hp
    obtain ⟨hd, msg, hmsg, hdst⟩ := htaken p hp
    obtain ⟨hlt, _⟩ := List.getElem?_eq_some_iff.1 hmsg
    exact ⟨hd, msg, by rw [List.getElem?_append_left hlt, hmsg], hdst⟩
  · have hmap := map_set_of_eq (f := KvCall.req) (y := { c with targets := ms }) hc rfl
    dsimp only
    rw [hmap]
    exact hreqs
  · intro x hx
    obtain ⟨y, hy, hr, _, _, hsub⟩ := hold x hx
    obtain ⟨h1, h2, h3⟩ := hcalls y hy
    rw [hr]
    exact ⟨h1, h2, fun hmem => h3 (hsub hmem)⟩
  · intro x hx msg hmsg key e hb
    obtain ⟨y, hy, hr, hkey, hw, _⟩ := hold x hx
    rw [hr] at hb
    rw [hkey, hw]
    rcases List.mem_append.1 hmsg with hmsg | hmsg
    · exact hagrees y hy msg hmsg key e hb
    · rw [List.mem_singleton] at hmsg
      subst hmsg
      obtain ⟨hreq, hk', hw'⟩ := request_body hb
      have hyc : y = c :=
        List.inj_on_of_nodup_map hreqs hy (List.mem_of_getElem? hc) hreq
      rw [hyc]
      exact ⟨hk', hw'⟩
  · intro j kv q a hkv hp
    exact (hacks j kv q a hkv hp).trans (countP_holdsAt_append _ Prod.fst _)

theorem Ok.send {s : KvSwarm ν α} {c : KvCall ν α} (h : s.Ok)
    (hc : (s.node n).calls[i]? = some c) (ht : c.targets = m :: ms) :
    ({ s.setNode n { s.node n with calls := (s.node n).calls.set i { c with targets := ms } } with
      sent := s.sent ++ [request n m c] } : KvSwarm ν α).Ok where
  node k := by
    by_cases hk : k = n
    · subst hk
      simp only [setNode, Function.update_self]
      exact nodeOk_ask (h.node k) hc ht
    · simp only [setNode, Function.update_of_ne hk]
      apply (h.node k).append_sent
      intro msg hmsg q key e hb
      rw [List.mem_singleton] at hmsg
      subst hmsg
      rw [(request_body hb).1, ((h.node n).calls c (List.mem_of_getElem? hc)).1]
      exact Ne.symm hk
  fresh msg hmsg q key e hb := by
    have hsame : ((Function.update s.node n
        { s.node n with calls := (s.node n).calls.set i { c with targets := ms } }) q.1).nextReq =
        (s.node q.1).nextReq := by
      by_cases hq : q.1 = n
      · rw [hq, Function.update_self]
      · rw [Function.update_of_ne hq]
    simp only [setNode, hsame]
    rcases List.mem_append.1 hmsg with hmsg | hmsg
    · exact h.fresh msg hmsg q key e hb
    · rw [List.mem_singleton] at hmsg
      subst hmsg
      obtain ⟨h1, h2, h3⟩ := (h.node n).calls c (List.mem_of_getElem? hc)
      rw [request_dst, (request_body hb).1, h1]
      refine ⟨h2, ?_⟩
      rintro rfl
      apply h3
      rw [ht]
      exact List.mem_cons_self
  requests q k := by
    have hold := h.requests q k
    have hnew := countP_request_le n m c q k
    simp only [setNode, List.countP_append]
    by_cases hq : q.1 = n
    · have hask := count_openTargets_ask hc ht q k
      rw [hq] at hold ⊢
      rw [Function.update_self]
      omega
    · -- a request carries the id of the node that sends it
      have hother : c.req ≠ q := by
        rintro rfl
        exact hq ((h.node n).calls c (List.mem_of_getElem? hc)).1
      rw [if_neg (fun he => hother he.1)] at hnew
      rw [Function.update_of_ne hq]
      omega
  replies q k := by
    have hold := h.replies q k
    have hzero : [request n m c].countP (isWriteRespBy q k) = 0 := by
      simp [isWriteRespBy, isWriteResp_request]
    have hmono := countP_holdsAt_append [request n m c] (l := s.sent) (P := isWriteReq q k)
      (m := (s.node k).inbox) Prod.fst (fun p => decide (0 < p.2))
    simp only [setNode, List.countP_append, hzero]
    by_cases hk : k = n
    · subst hk
      rw [Function.update_self]
      exact hold.trans hmono
    · rw [Function.update_of_ne hk]
      exact hold.trans hmono

theorem Ok.deliver {s : KvSwarm ν α} (h : s.Ok) (hi : s.sent[i]? = some msg)
    (hdst : msg.dst = n) (hnew : i ∉ s.delivered n) (l : List ℕ) :
    ({ s.setNode n { s.node n with seen := l, inbox := (s.node n).inbox ++ [(i, 0)] } with
      delivered := Function.update s.delivered n (s.delivered n ++ [i]) } : KvSwarm ν α).Ok where
  node k := by
    by_cases hk : k = n
    · subst hk
      obtain ⟨hids, htaken, hreqs, hcalls, hagrees, hacks⟩ := h.node k
      simp only [setNode, Function.update_self]
      constructor
      · rw [List.map_append, List.map_singleton]
        apply hids.append (List.nodup_singleton _)
        apply List.disjoint_singleton.2
        intro hmem
        obtain ⟨p, hp, he⟩ := List.mem_map.1 hmem
        apply hnew
        have hd := (htaken p hp).1
        rw [he] at hd
        exact hd
      · intro p hp
        rcases List.mem_append.1 hp with hp | hp
        · obtain ⟨hd, hmsg⟩ := htaken p hp
          exact ⟨List.mem_append_left _ hd, hmsg⟩
        · rw [List.mem_singleton] at hp
          subst hp
          exact ⟨List.mem_append_right _ List.mem_cons_self, msg, hi, hdst⟩
      · exact hreqs
      · exact hcalls
      · exact hagrees
      · intro j kv q a hkv hp
        rw [List.countP_append]
        exact (hacks j kv q a hkv hp).trans (Nat.le_add_right _ _)
    · simp only [setNode, Function.update_of_ne hk]
      exact h.node k
  fresh msg' hmsg' q key e hb := by
    have hold := h.fresh msg' hmsg' q key e hb
    simp only [setNode]
    by_cases hq : q.1 = n
    · rw [hq] at hold ⊢
      rw [Function.update_self]
      exact hold
    · rw [Function.update_of_ne hq]
      exact hold
  requests q k := by
    have hold := h.requests q k
    simp only [setNode]
    by_cases hq : q.1 = n
    · rw [hq] at hold ⊢
      rw [Function.update_self]
      exact hold
    · rw [Function.update_of_ne hq]
      exact hold
  replies q k := by
    have hold := h.replies q k
    simp only [setNode]
    by_cases hk : k = n
    · subst hk
      rw [Function.update_self, List.countP_append]
      exact hold.trans (Nat.le_add_right _ _)
    · rw [Function.update_of_ne hk]
      exact hold

end

end KvSwarm

namespace KvNode

section
omit [DecidableEq α]

theorem onMessage_frame (nd : KvNode ν α) (n : ν) (j : ℕ) (kv : KVStore ν α)
    (msg : KvMessage ν α) :
    (nd.onMessage n j kv msg).1.inbox = nd.inbox ∧
      (nd.onMessage n j kv msg).1.calls = nd.calls ∧
      (nd.onMessage n j kv msg).1.nextReq = nd.nextReq ∧
      ∀ m ∈ (nd.onMessage n j kv msg).2, m.src = n ∧ ∀ q key e, m.body ≠ .WRITE_REQ q key e := by
  unfold onMessage
  split
  · simp
  · split <;> simp [setPending, setKv]
  · simp
  · split <;> simp [setPending, setKv]

theorem countP_onMessage (nd : KvNode ν α) (n : ν) (j : ℕ) (kv : KVStore ν α)
    (msg : KvMessage ν α) (q : ReqId ν) :
    (nd.onMessage n j kv msg).2.countP (isWriteRespBy q n) =
      if isWriteReq q msg.dst msg then 1 else 0 := by
  unfold onMessage isWriteReq isWriteRespBy isWriteResp
  cases msg.body with
  | WRITE_REQ r key e => by_cases hr : r = q <;> simp [hr]
  | WRITE_RESP r =>
    dsimp only
    split <;> simp
  | READ_REQ r key => simp
  | READ_RESP r e =>
    dsimp only
    split <;> simp

theorem onMessage_acks {nd : KvNode ν α} {kv kv' : KVStore ν α} (hkv : nd.kvs[j]? = some kv)
    (hkv' : (nd.onMessage n j kv msg).1.kvs[i]? = some kv')
    (hp : kv'.pending.get q = some (.acks a)) :
    (∃ kv₀ : KVStore ν α, nd.kvs[i]? = some kv₀ ∧ kv₀.pending.get q = some (.acks a)) ∨
      (i = j ∧ msg.body = .WRITE_RESP q ∧
        ∃ b, kv.pending.get q = some (.acks b) ∧ a = b + 1) := by
  have hset : ∀ r p', (nd.setPending j kv r p').kvs[i]? = some kv' →
      (∃ kv₀ : KVStore ν α, nd.kvs[i]? = some kv₀ ∧ kv₀.pending.get q = some (.acks a)) ∨
        (i = j ∧ q = r ∧ p' = .acks a) := by
    intro r p' hk
    simp only [setPending, setKv, List.getElem?_set] at hk
    by_cases hij : j = i
    · subst hij
      obtain ⟨hlt, _⟩ := List.getElem?_eq_some_iff.1 hkv
      simp only [hlt, if_true, Option.some.injEq] at hk
      subst hk
      rw [Dict.get_set] at hp
      by_cases hq : q = r
      · rw [if_pos hq] at hp
        exact .inr ⟨rfl, hq, Option.some.inj hp⟩
      · rw [if_neg hq] at hp
        exact .inl ⟨kv, hkv, hp⟩
    · rw [if_neg hij] at hk
      exact .inl ⟨kv', hk, hp⟩
  unfold onMessage at hkv'
  cases hb : msg.body with
  | WRITE_REQ r key e =>
    rw [hb] at hkv'
    exact .inl ⟨kv', hkv', hp⟩
  | READ_REQ r key =>
    rw [hb] at hkv'
    exact .inl ⟨kv', hkv', hp⟩
  | WRITE_RESP r =>
    rw [hb] at hkv'
    dsimp only at hkv'
    split at hkv'
    · rename_i b hpend
      rcases hset r _ hkv' with hl | ⟨hij, hq, hpb⟩
      · exact .inl hl
      · subst hq
        cases hpb
        exact .inr ⟨hij, rfl, b, hpend, rfl⟩
    · exact .inl ⟨kv', hkv', hp⟩
  | READ_RESP r e =>
    rw [hb] at hkv'
    dsimp only at hkv'
    split at hkv'
    · rcases hset r _ hkv' with hl | ⟨_, _, hpb⟩
      · exact .inl hl
      · cases hpb
    · exact .inl ⟨kv', hkv', hp⟩

end

end KvNode

namespace KvSwarm

/-- The swarm after node `n` ran a handler for the message of its `t`-th thread. -/
def handled (s : KvSwarm ν α) (n : ν) (t i j : ℕ) (kv : KVStore ν α) (msg : KvMessage ν α) :
    KvSwarm ν α :=
  let r := (s.node n).onMessage n j kv msg
  { s.setNode n { r.1 with inbox := r.1.inbox.set t (i, j + 1) } with sent := s.sent ++ r.2 }

section
omit [DecidableEq α]

theorem Ok.handled_node {s : KvSwarm ν α} (h : s.Ok) (ht : (s.node n).inbox[t]? = some (i, j))
    (hi : s.sent[i]? = some msg) (hkv : (s.node n).kvs[j]? = some kv) (k : ν) :
    ((s.handled n t i j kv msg).node k).Ok (s.handled n t i j kv msg).sent (s.delivered k) k := by
  obtain ⟨hinbox, hcalls, hnext, hout⟩ := (s.node n).onMessage_frame n j kv msg
  have hout' : ∀ m ∈ ((s.node n).onMessage n j kv msg).2, ∀ q key e,
      m.body = .WRITE_REQ q key e → q.1 ≠ k :=
    fun m hm q key e hb => absurd hb ((hout m hm).2 q key e)
  have hk' := (h.node k).append_sent hout'
  by_cases hk : k = n
  · subst hk
    have hmap := map_set_of_eq (f := Prod.fst) (y := (i, j + 1)) ht rfl
    simp only [KvSwarm.handled, setNode, Function.update_self]
    constructor
    · simp only [hinbox, hmap]
      exact hk'.ids
    · intro p hp
      simp only [hinbox] at hp
      have hmem : p.1 ∈ ((s.node k).inbox.set t (i, j + 1)).map Prod.fst :=
        List.mem_map_of_mem hp
      rw [hmap] at hmem
      obtain ⟨p', hp', he⟩ := List.mem_map.1 hmem
      rw [← he]
      exact hk'.taken p' hp'
    · simp only [hcalls]
      exact hk'.reqs
    · simp only [hcalls, hnext]
      exact hk'.calls
    · simp only [hcalls]
      exact hk'.agrees
    · intro j' kv' q a hkv' hp
      simp only [hinbox]
      rcases KvNode.onMessage_acks hkv hkv' hp with ⟨kv₀, hkv₀, hp₀⟩ | ⟨rfl, hb, b, hpb, rfl⟩
      · apply (hk'.acks j' kv₀ q a hkv₀ hp₀).trans
        apply countP_le_set ht
        intro hP
        simp only [Bool.and_eq_true, decide_eq_true_eq] at hP ⊢
        exact ⟨hP.1, Nat.lt_succ_of_lt hP.2⟩
      · have hle := hk'.acks j' kv q b hkv hpb
        have hresp : holdsAt s.sent (isWriteResp q) i = true :=
          holdsAt_iff.2 ⟨msg, hi, isWriteResp_iff.2 hb⟩
        have hat := holdsAt_append ((s.node k).onMessage k j' kv msg).2 hresp
        rw [countP_set_new ht (by simp) (by simp [hat])]
        exact Nat.succ_le_succ hle
  · simp only [KvSwarm.handled, setNode, Function.update_of_ne hk]
    exact hk'

theorem Ok.handled {s : KvSwarm ν α} (h : s.Ok) (ht : (s.node n).inbox[t]? = some (i, j))
    (hi : s.sent[i]? = some msg) (hkv : (s.node n).kvs[j]? = some kv)
    (hone : ∀ q key e, msg.body = .WRITE_REQ q key e → j = 0) :
    (s.handled n t i j kv msg).Ok := by
  obtain ⟨hinbox, hcalls, hnext, hout⟩ := (s.node n).onMessage_frame n j kv msg
  have hopen : ((s.node n).onMessage n j kv msg).1.openTargets = (s.node n).openTargets := by
    funext q
    simp only [KvNode.openTargets, hcalls]
  have hdst : msg.dst = n := by
    obtain ⟨_, msg', hmsg', hd⟩ := (h.node n).taken _ (List.mem_of_getElem? ht)
    rw [hi] at hmsg'
    cases hmsg'
    exact hd
  refine ⟨h.handled_node ht hi hkv, ?_, ?_, ?_⟩
  · intro m hm q key e hb
    rcases List.mem_append.1 hm with hm | hm
    · have hold := h.fresh m hm q key e hb
      simp only [KvSwarm.handled, setNode]
      by_cases hq : q.1 = n
      · rw [hq] at hold ⊢
        rw [Function.update_self, hnext]
        exact hold
      · rw [Function.update_of_ne hq]
        exact hold
    · exact absurd hb ((hout m hm).2 q key e)
  · intro q k
    have hold := h.requests q k
    have hzero : ((s.node n).onMessage n j kv msg).2.countP (isWriteReq q k) = 0 := by
      rw [List.countP_eq_zero]
      intro m hm hreq
      obtain ⟨_, key, e, hb⟩ := isWriteReq_iff.1 hreq
      exact (hout m hm).2 q key e hb
    simp only [KvSwarm.handled, setNode, List.countP_append, hzero]
    by_cases hq : q.1 = n
    · rw [hq] at hold ⊢
      rw [Function.update_self]
      have hsame := congrFun hopen q
      unfold KvNode.openTargets at hsame hold ⊢
      rw [hsame]
      exact hold
    · rw [Function.update_of_ne hq]
      exact hold
  · intro q k
    have hold := h.replies q k
    have hmono := countP_holdsAt_append ((s.node n).onMessage n j kv msg).2 (l := s.sent)
      (P := isWriteReq q k) (m := (s.node k).inbox) Prod.fst (fun p => decide (0 < p.2))
    simp only [KvSwarm.handled, setNode, List.countP_append]
    by_cases hk : k = n
    · subst hk
      rw [Function.update_self]
      simp only [hinbox, KvNode.countP_onMessage, hdst]
      by_cases hreq : isWriteReq q k msg = true
      · rw [if_pos hreq]
        obtain ⟨_, key, e, hb⟩ := isWriteReq_iff.1 hreq
        have hj := hone q key e hb
        subst hj
        have hat := holdsAt_append ((s.node k).onMessage k 0 kv msg).2
          (holdsAt_iff.2 ⟨msg, hi, hreq⟩)
        rw [countP_set_new ht (by simp) (by simp [hat])]
        omega
      · rw [if_neg hreq]
        apply (hold.trans hmono).trans
        apply countP_le_set ht
        intro hP
        simp only [Bool.and_eq_true, decide_eq_true_eq] at hP ⊢
        exact ⟨hP.1, Nat.succ_pos _⟩
    · have hzero : ((s.node n).onMessage n j kv msg).2.countP (isWriteRespBy q k) = 0 := by
        rw [List.countP_eq_zero]
        intro m hm hresp
        rw [isWriteRespBy, Bool.and_eq_true, decide_eq_true_eq, (hout m hm).1] at hresp
        exact hk hresp.2.symm
      rw [Function.update_of_ne hk, hzero]
      exact hold.trans hmono

end

/-- What a step must meet: a message that a node has taken in before is still remembered when it
comes again, and write requests are handled by the first `KVStore` of their node only. -/
def Meets (s : KvSwarm ν α) : KvAction ν α → Prop
  | .deliver n i => i ∈ s.delivered n → i ∈ (s.node n).seen
  | .handle n t => ∀ p ∈ (s.node n).inbox[t]?, ∀ msg ∈ s.sent[p.1]?,
      isWriteReq msg.body.req msg.dst msg = true → p.2 = 0
  | _ => True

instance (s : KvSwarm ν α) : (a : KvAction ν α) → Decidable (s.Meets a)
  | .deliver n i => inferInstanceAs (Decidable (i ∈ s.delivered n → i ∈ (s.node n).seen))
  | .handle n t => inferInstanceAs (Decidable (∀ p ∈ (s.node n).inbox[t]?, ∀ msg ∈ s.sent[p.1]?,
      isWriteReq msg.body.req msg.dst msg = true → p.2 = 0))
  | .create .. => isTrue trivial
  | .put .. => isTrue trivial
  | .get .. => isTrue trivial
  | .delete .. => isTrue trivial
  | .sweepExpired .. => isTrue trivial
  | .createIndex .. => isTrue trivial
  | .quorumPut .. => isTrue trivial
  | .quorumGet .. => isTrue trivial
  | .send .. => isTrue trivial
  | .finish .. => isTrue trivial
  | .digest .. => isTrue trivial
  | .mergeEntry .. => isTrue trivial
  | .applyDigest .. => isTrue trivial

section
omit [DecidableEq α]

theorem Ok.init : (KvSwarm.init : KvSwarm ν α).Ok where
  node n := by
    constructor
    · exact List.nodup_nil
    · intro p hp
      cases hp
    · exact List.nodup_nil
    · intro c hc
      cases hc
    · intro c hc
      cases hc
    · intro j kv q a hkv
      simp [KvSwarm.init, KvNode.init] at hkv
  fresh msg hmsg := by cases hmsg
  requests q m := by simp [KvSwarm.init, KvNode.init, KvNode.openTargets]
  replies q m := by simp [KvSwarm.init]

theorem quiet_create (s : KvSwarm ν α) (n : ν) (nspace : Str) :
    Quiet s (s.setNode n { s.node n with kvs := (s.node n).kvs ++ [.init nspace] }) := by
  have hpend : (s.node n).PendingFrom
      { s.node n with kvs := (s.node n).kvs ++ [.init nspace] } := by
    intro j kv' q p hkv hp
    simp only [List.getElem?_append, List.getElem?_singleton] at hkv
    split at hkv
    · exact ⟨kv', hkv, hp⟩
    · split at hkv
      · cases hkv
        cases hp
      · cases hkv
  exact quiet_setNode rfl (.refl _) rfl hpend

theorem quiet_createIndex {s : KvSwarm ν α} {kv kv' : KVStore ν α}
    (hkv : (s.node n).kvs[j]? = some kv) (hp : kv'.pending = kv.pending) :
    Quiet s (s.setNode n ((s.node n).setKv j kv')) := by
  have hfrom : (s.node n).PendingFrom ((s.node n).setKv j kv') := by
    intro i kv₁ q p hget hpend
    simp only [KvNode.setKv, List.getElem?_set] at hget
    by_cases hij : j = i
    · subst hij
      obtain ⟨hlt, _⟩ := List.getElem?_eq_some_iff.1 hkv
      simp only [hlt, if_true, Option.some.injEq] at hget
      subst hget
      rw [hp] at hpend
      exact ⟨kv, hkv, hpend⟩
    · rw [if_neg hij] at hget
      exact ⟨kv₁, hget, hpend⟩
  exact quiet_setNode rfl (.refl _) rfl hfrom

theorem Quiet.trans {s s' s'' : KvSwarm ν α} (h : Quiet s s') (h' : Quiet s' s'') :
    Quiet s s'' where
  sent := h'.sent.trans h.sent
  delivered := h'.delivered.trans h.delivered
  inbox n := (h'.inbox n).trans (h.inbox n)
  calls n := (h'.calls n).trans (h.calls n)
  nextReq n := (h'.nextReq n).trans (h.nextReq n)
  pending n j kv q p hkv hp := by
    obtain ⟨kv', hkv', hp'⟩ := h'.pending n j kv q p hkv hp
    exact h.pending n j kv' q p hkv' hp'

end

/-- A node begins to ask others, after local writes. -/
def Calls (s s' : KvSwarm ν α) : Prop :=
  ∃ n kv c p, ∃ s₁ : KvSwarm ν α, Quiet s s₁ ∧ (s₁.node n).kvs[c.inst]? = some kv ∧
    c.req = (n, (s₁.node n).nextReq) ∧ c.targets.Nodup ∧ n ∉ c.targets ∧
    (p = .acks 0 ∨ ∃ l, p = .responses l) ∧
    (∀ e, c.wrote = some e → (s₁.node n).store.data.get c.key = some e) ∧
    s' = s₁.call n kv c p

theorem calls_quorumPut {s : KvSwarm ν α} {kv : KVStore ν α} {peers : List ν}
    (hkv : (s.node n).kvs[j]? = some kv) (hpeers : peers.Nodup ∧ n ∉ peers) (key : Str)
    (value : KvValue α) (w : ℤ) (ttl : Option ℚ) (now : ℚ) (clock : ℕ → ℚ) :
    Calls s ((s.write n (kv.quorumPutWrites (s.node n).store key value ttl now) clock).call n kv
      ⟨j, (n, (s.node n).nextReq), kv.k key, peers.take (w - 1).toNat,
        some (kv.quorumPutEntry (s.node n).store key value clock)⟩ (.acks 0)) := by
  have hsub := List.take_subset (w - 1).toNat peers
  refine ⟨n, kv, _, _, _, quiet_write s n _ clock, ?_, ?_, ?_, ?_, .inl rfl, ?_, rfl⟩
  · simpa [write, setNode] using hkv
  · simp [write, setNode]
  · exact (List.take_sublist _ _).nodup hpeers.1
  · exact fun hmem => hpeers.2 (hsub hmem)
  · intro e he
    cases he
    simp only [write, setNode, Function.update_self]
    exact kv.get_quorumPutWrites _ key value ttl now clock

section
omit [DecidableEq α]

theorem calls_quorumGet {s : KvSwarm ν α} {kv : KVStore ν α} {peers : List ν}
    (hkv : (s.node n).kvs[j]? = some kv) (hpeers : peers.Nodup ∧ n ∉ peers) (key : Str) (r : ℤ)
    (l : List (ν × Option (EntryData ℚ ν (KvValue α)))) :
    Calls s (s.call n kv ⟨j, (n, (s.node n).nextReq), kv.k key, peers.take (r - 1).toNat, none⟩
      (.responses l)) := by
  have hsub := List.take_subset (r - 1).toNat peers
  refine ⟨n, kv, _, _, s, .refl s, hkv, rfl, ?_, ?_, .inr ⟨_, rfl⟩, ?_, rfl⟩
  · exact (List.take_sublist _ _).nodup hpeers.1
  · exact fun hmem => hpeers.2 (hsub hmem)
  · intro e he
    cases he

end

theorem step_cases {s s' : KvSwarm ν α} (h : s.step a = some s') :
    Quiet s s' ∨ Calls s s' ∨
    (∃ n i c m ms, (s.node n).calls[i]? = some c ∧ c.targets = m :: ms ∧
      s' = { s.setNode n { s.node n with
          calls := (s.node n).calls.set i { c with targets := ms } } with
        sent := s.sent ++ [request n m c] }) ∨
    (∃ n i msg l, a = .deliver n i ∧ s.sent[i]? = some msg ∧ msg.dst = n ∧
      i ∉ (s.node n).seen ∧
      s' = { s.setNode n { s.node n with seen := l, inbox := (s.node n).inbox ++ [(i, 0)] } with
        delivered := Function.update s.delivered n (s.delivered n ++ [i]) }) ∨
    (∃ n t i j msg kv, a = .handle n t ∧ (s.node n).inbox[t]? = some (i, j) ∧
      s.sent[i]? = some msg ∧ (s.node n).kvs[j]? = some kv ∧
      s' = s.handled n t i j kv msg) := by
  cases a with
  | create n nspace =>
    cases h
    exact .inl (quiet_create s n nspace)
  | put n j key value ttl now clock =>
    obtain ⟨kv, _, h⟩ := Option.bind_eq_some_iff.1 h
    cases h
    exact .inl (quiet_write s n _ clock)
  | get n j key now clock =>
    obtain ⟨kv, _, h⟩ := Option.bind_eq_some_iff.1 h
    cases h
    exact .inl (quiet_write s n _ clock)
  | delete n j key clock =>
    obtain ⟨kv, _, h⟩ := Option.bind_eq_some_iff.1 h
    cases h
    exact .inl (quiet_write s n _ clock)
  | sweepExpired n j now clock =>
    obtain ⟨kv, _, h⟩ := Option.bind_eq_some_iff.1 h
    cases h
    exact .inl (quiet_write s n _ clock)
  | createIndex n j name extractor now clock =>
    obtain ⟨kv, hkv, h⟩ := Option.bind_eq_some_iff.1 h
    cases h
    have hq : Quiet s (s.setNode n ((s.node n).setKv j
        { kv with indexes := kv.indexes.set name extractor })) := quiet_createIndex hkv rfl
    exact .inl (hq.trans (quiet_write _ n _ clock))
  | quorumPut n j key value w ttl peers now clock =>
    obtain ⟨kv, hkv, h⟩ := Option.bind_eq_some_iff.1 h
    split at h
    · rename_i hpeers
      cases h
      exact .inr (.inl (calls_quorumPut hkv hpeers key value w ttl now clock))
    · cases h
  | quorumGet n j key r peers =>
    obtain ⟨kv, hkv, h⟩ := Option.bind_eq_some_iff.1 h
    split at h
    · rename_i hpeers
      cases h
      exact .inr (.inl (calls_quorumGet hkv hpeers key r _))
    · cases h
  | send n i =>
    obtain ⟨c, hc, h⟩ := Option.bind_eq_some_iff.1 h
    split at h
    · cases h
    · rename_i m ms ht
      cases h
      exact .inr (.inr (.inl ⟨n, i, c, m, ms, hc, ht, rfl⟩))
  | finish n i =>
    obtain ⟨c, _, h⟩ := Option.bind_eq_some_iff.1 h
    split at h
    · cases h
      exact .inl (quiet_finish n i c)
    · cases h
  | deliver n i =>
    obtain ⟨msg, hi, h⟩ := Option.bind_eq_some_iff.1 h
    split at h
    · rename_i hdst
      split at h
      · cases h
        exact .inl (.refl s)
      · rename_i hseen
        cases h
        exact .inr (.inr (.inr (.inl ⟨n, i, msg, _, rfl, hi, hdst, hseen, rfl⟩)))
    · cases h
  | handle n t =>
    obtain ⟨⟨i, j⟩, ht, h⟩ := Option.bind_eq_some_iff.1 h
    obtain ⟨msg, hi, h⟩ := Option.bind_eq_some_iff.1 h
    obtain ⟨kv, hkv, h⟩ := Option.bind_eq_some_iff.1 h
    cases h
    exact .inr (.inr (.inr (.inr ⟨n, t, i, j, msg, kv, rfl, ht, hi, hkv, rfl⟩)))
  | digest n =>
    cases h
    exact .inl ((Quiet.refl s).of_eq rfl rfl rfl)
  | mergeEntry n i key =>
    obtain ⟨d, _, h⟩ := Option.bind_eq_some_iff.1 h
    obtain ⟨x, _, h⟩ := Option.bind_eq_some_iff.1 h
    cases h
    exact .inl (quiet_store s n _)
  | applyDigest n i =>
    obtain ⟨d, _, h⟩ := Option.bind_eq_some_iff.1 h
    cases h
    exact .inl (quiet_store s n _)

theorem Ok.step {s s' : KvSwarm ν α} (h : s.Ok) (hm : s.Meets a) (hs : s.step a = some s') :
    s'.Ok := by
  rcases step_cases hs with hq | ⟨n, kv, c, p, s₁, hq, hkv, hreq, hnd, hn, hp, _, rfl⟩ |
    ⟨n, i, c, m, ms, hc, ht, rfl⟩ | ⟨n, i, msg, l, rfl, hi, hdst, hseen, rfl⟩ |
    ⟨n, t, i, j, msg, kv, rfl, ht, hi, hkv, rfl⟩
  · exact h.quiet hq
  · exact (h.quiet hq).call hkv hreq hnd hn hp
  · exact h.send hc ht
  · exact h.deliver hi hdst (fun hd => hseen (hm hd)) l
  · apply h.handled ht hi hkv
    intro q key e hb
    apply hm _ ht _ hi
    simp [isWriteReq, hb, KvBody.req]

theorem Ok.of_run {s : KvSwarm ν α} (h : Run KvSwarm.step KvSwarm.init past s)
    (hm : ∀ p ∈ past, p.1.Meets p.2) : s.Ok :=
  h.invariant hm Ok.init (fun _ _ _ hs hc hstep => hs.step hc hstep)

def ackers (s : KvSwarm ν α) (q : ReqId ν) : Finset ν :=
  ((s.sent.filter (isWriteResp q)).map KvMessage.src).toFinset

section
omit [DecidableEq α]

theorem Ok.ackCount_le {s : KvSwarm ν α} (h : s.Ok) (hc : c ∈ (s.node n).calls) :
    n ∉ s.ackers c.req ∧ (s.node n).ackCount c ≤ (s.ackers c.req).card + 1 := by
  have hreq := ((h.node n).calls c hc).1
  have hreply : ∀ m, s.sent.countP (isWriteRespBy c.req m) ≤
      s.sent.countP (isWriteReq c.req m) := by
    intro m
    apply (h.replies c.req m).trans
    rw [List.countP_eq_length_filter]
    have hsub : ((s.node m).inbox.filter (fun p =>
        holdsAt s.sent (isWriteReq c.req m) p.1 && decide (0 < p.2))).map Prod.fst |>.Nodup :=
      (List.filter_sublist.map _).nodup (h.node m).ids
    rw [← List.length_map Prod.fst]
    apply length_le_countP hsub
    intro i hi
    obtain ⟨p, hp, rfl⟩ := List.mem_map.1 hi
    have hP := (List.mem_filter.1 hp).2
    rw [Bool.and_eq_true] at hP
    exact hP.1
  have hone : ∀ m, s.sent.countP (isWriteRespBy c.req m) ≤ 1 := by
    intro m
    have hr := h.requests c.req m
    have hle := hreply m
    omega
  have hnodup : ((s.sent.filter (isWriteResp c.req)).map KvMessage.src).Nodup := by
    rw [List.nodup_iff_count_le_one]
    intro m
    have hm := hone m
    rw [List.count_eq_countP, List.countP_map, List.countP_filter]
    apply le_trans (le_of_eq _) hm
    congr 1
    funext msg
    simp [isWriteRespBy, Bool.and_comm, beq_eq_decide]
  constructor
  · intro hmem
    rw [ackers, List.mem_toFinset, List.mem_map] at hmem
    obtain ⟨msg, hmsg, hsrc⟩ := hmem
    obtain ⟨hmsg, hresp⟩ := List.mem_filter.1 hmsg
    have hpos : 0 < s.sent.countP (isWriteRespBy c.req n) :=
      List.countP_pos_iff.2 ⟨msg, hmsg, by simp [isWriteRespBy, hresp, hsrc]⟩
    obtain ⟨req, hreqmem, hisreq⟩ := List.countP_pos_iff.1 (hpos.trans_le (hreply n))
    obtain ⟨hdst, key, e, hb⟩ := isWriteReq_iff.1 hisreq
    exact (h.fresh req hreqmem c.req key e hb).2 (hdst.trans hreq.symm)
  · have hcard : (s.ackers c.req).card = s.sent.countP (isWriteResp c.req) := by
      rw [ackers, List.toFinset_card_of_nodup hnodup, List.length_map,
        List.countP_eq_length_filter]
    rw [hcard]
    unfold KvNode.ackCount KvNode.pendingOf
    cases hkv : (s.node n).kvs[c.inst]? with
    | none => simp
    | some kv =>
      cases hp : kv.pending.get c.req with
      | none => simp [hp]
      | some p =>
        cases p with
        | responses l => simp [hp]
        | acks a =>
          have hle := (h.node n).acks c.inst kv c.req a hkv hp
          have hids : ((s.node n).inbox.filter (fun p =>
              holdsAt s.sent (isWriteResp c.req) p.1 && decide (c.inst < p.2))).map Prod.fst
              |>.Nodup :=
            (List.filter_sublist.map _).nodup (h.node n).ids
          have hcount := length_le_countP hids (l := s.sent) (P := isWriteResp c.req) (by
            intro i hi
            obtain ⟨p, hp, rfl⟩ := List.mem_map.1 hi
            have hP := (List.mem_filter.1 hp).2
            rw [Bool.and_eq_true] at hP
            exact hP.1)
          rw [List.length_map, ← List.countP_eq_length_filter] at hcount
          simp only [hp, Option.bind_eq_bind, Option.bind_some]
          omega

end

theorem returned_finish {s s' : KvSwarm ν α} (hs : s.step (.finish n i) = some s')
    (hret : s'.returned = s.returned ++ [⟨key, e, count⟩]) :
    ∃ c ∈ (s.node n).calls, c.wrote = some e ∧ c.key = key ∧ (s.node n).ackCount c = count := by
  obtain ⟨c, hc, hs⟩ := Option.bind_eq_some_iff.1 hs
  refine ⟨c, List.mem_of_getElem? hc, ?_⟩
  split at hs
  · cases hs
    unfold finish at hret
    dsimp only at hret
    cases hw : c.wrote with
    | none =>
      rw [hw] at hret
      simp [setNode] at hret
    | some x =>
      rw [hw] at hret
      simp only [List.append_cancel_left_eq, List.cons.injEq, PutReturn.mk.injEq,
        and_true] at hret
      obtain ⟨h1, h2, h3⟩ := hret
      exact ⟨by rw [h2], h1, h3⟩
  · cases hs

/-- Node `m` holds an entry of `key` whose version is at least `v`. -/
def Holds (s : KvSwarm ν α) (m : ν) (key : Str) (v : Version ℚ ν) : Prop :=
  ∃ e, (s.node m).store.data.get key = some e ∧ v ≤ e.version

/-- Every acknowledgement was sent in a state in which its sender held the entry. -/
def Acknowledged (past : List (KvSwarm ν α × KvAction ν α)) (s : KvSwarm ν α) : Prop :=
  ∀ msg ∈ s.sent, ∀ q, msg.body = .WRITE_RESP q → ∃ req ∈ s.sent, ∃ key e,
    req.body = .WRITE_REQ q key e ∧
      ∃ t, Visited past s t ∧ t.Holds msg.src key (Entry.fromDict e).version

/-- Every call of `quorum_put` began in a state in which its node held the entry. -/
def Began (past : List (KvSwarm ν α × KvAction ν α)) (s : KvSwarm ν α) : Prop :=
  ∀ n, ∀ c ∈ (s.node n).calls, ∀ e, c.wrote = some e →
    ∃ t, Visited past s t ∧ t.Holds n c.key e.version

section
omit [DecidableEq α]

theorem holds_handled {s : KvSwarm ν α} (hm : m ∈ ((s.node n).onMessage n j kv msg).2)
    (hb : m.body = .WRITE_RESP q) :
    m.src = n ∧ ∃ key e, msg.body = .WRITE_REQ q key e ∧
      (s.handled n t i j kv msg).Holds n key (Entry.fromDict e).version := by
  unfold KvNode.onMessage at hm
  cases hbody : msg.body with
  | WRITE_REQ r key e =>
    rw [hbody] at hm
    rw [List.mem_singleton] at hm
    subst hm
    cases hb
    refine ⟨rfl, key, e, rfl, ?_⟩
    simp only [Holds, handled, setNode, Function.update_self, KvNode.onMessage, hbody,
      DistributedStore.get_mergeEntry, if_true]
    exact ⟨_, rfl, le_newer _ _ _⟩
  | WRITE_RESP r =>
    rw [hbody] at hm
    dsimp only at hm
    split at hm <;> cases hm
  | READ_REQ r key =>
    rw [hbody] at hm
    rw [List.mem_singleton] at hm
    subst hm
    cases hb
  | READ_RESP r e =>
    rw [hbody] at hm
    dsimp only at hm
    split at hm <;> cases hm

end

theorem acknowledged_of_run {s : KvSwarm ν α} (h : Run KvSwarm.step KvSwarm.init past s) :
    Acknowledged past s := by
  induction h with
  | start => intro msg hmsg; cases hmsg
  | @next past s a s' hr hs ih =>
    have hkeep : ∀ msg ∈ s.sent, (∀ x ∈ s.sent, x ∈ s'.sent) → ∀ q, msg.body = .WRITE_RESP q →
        ∃ req ∈ s'.sent, ∃ key e, req.body = .WRITE_REQ q key e ∧
          ∃ t, Visited ((s, a) :: past) s' t ∧ t.Holds msg.src key (Entry.fromDict e).version := by
      intro msg hmsg hsub q hb
      obtain ⟨req, hreq, key, e, hbody, t, ht, hheld⟩ := ih msg hmsg q hb
      exact ⟨req, hsub req hreq, key, e, hbody, t, ht.next a s', hheld⟩
    intro msg hmsg q hb
    rcases step_cases hs with hq | ⟨n, kv, c, p, s₁, hq, _, _, _, _, _, _, rfl⟩ |
      ⟨n, i, c, m, ms, _, _, rfl⟩ | ⟨n, i, msg', l, _, _, _, _, rfl⟩ |
      ⟨n, t, i, j, msg', kv, _, _, hi, _, rfl⟩
    · rw [hq.sent] at hmsg
      exact hkeep msg hmsg (by rw [hq.sent]; exact fun _ hx => hx) q hb
    · have hsent : (s₁.call n kv c p).sent = s.sent := hq.sent
      rw [hsent] at hmsg
      exact hkeep msg hmsg (by rw [hsent]; exact fun _ hx => hx) q hb
    · rcases List.mem_append.1 hmsg with hmsg | hmsg
      · exact hkeep msg hmsg (fun _ hx => List.mem_append_left _ hx) q hb
      · rw [List.mem_singleton] at hmsg
        subst hmsg
        have hno := isWriteResp_request q n m c
        rw [isWriteResp_iff.2 hb] at hno
        cases hno
    · exact hkeep msg hmsg (fun _ hx => hx) q hb
    · rcases List.mem_append.1 hmsg with hmsg | hmsg
      · exact hkeep msg hmsg (fun _ hx => List.mem_append_left _ hx) q hb
      · obtain ⟨hsrc, key, e, hbody, hheld⟩ := holds_handled (t := t) (i := i) hmsg hb
        refine ⟨msg', List.mem_append_left _ (List.mem_of_getElem? hi), key, e, hbody, _, .inl rfl,
          ?_⟩
        rw [hsrc]
        exact hheld

theorem began_of_run {s : KvSwarm ν α} (h : Run KvSwarm.step KvSwarm.init past s) :
    Began past s := by
  induction h with
  | start => intro n c hc; cases hc
  | @next past s a s' hr hs ih =>
    have hkeep : ∀ n, ∀ c ∈ (s.node n).calls, ∀ e, c.wrote = some e →
        ∃ t, Visited ((s, a) :: past) s' t ∧ t.Holds n c.key e.version := by
      intro n c hc e he
      obtain ⟨t, ht, hheld⟩ := ih n c hc e he
      exact ⟨t, ht.next a s', hheld⟩
    intro k c' hc' e he
    rcases step_cases hs with hq | ⟨n, kv, c, p, s₁, hq, _, _, _, _, _, hw, rfl⟩ |
      ⟨n, i, c, m, ms, hc, _, rfl⟩ | ⟨n, i, msg', l, _, _, _, _, rfl⟩ |
      ⟨n, t, i, j, msg', kv, _, _, hi, _, rfl⟩
    · exact hkeep k c' ((hq.calls k).subset hc') e he
    · by_cases hk : k = n
      · subst hk
        simp only [call, setNode, Function.update_self] at hc'
        rcases List.mem_append.1 hc' with hc' | hc'
        · exact hkeep k c' ((hq.calls k).subset hc') e he
        · rw [List.mem_singleton] at hc'
          subst hc'
          refine ⟨_, .inl rfl, e, ?_, le_rfl⟩
          simp only [call, setNode, Function.update_self]
          exact hw e he
      · simp only [call, setNode, Function.update_of_ne hk] at hc'
        exact hkeep k c' ((hq.calls k).subset hc') e he
    · by_cases hk : k = n
      · subst hk
        simp only [setNode, Function.update_self] at hc'
        rcases List.mem_or_eq_of_mem_set hc' with hc' | rfl
        · exact hkeep k c' hc' e he
        · exact hkeep k c (List.mem_of_getElem? hc) e he
      · simp only [setNode, Function.update_of_ne hk] at hc'
        exact hkeep k c' hc' e he
    · by_cases hk : k = n
      · subst hk
        simp only [setNode, Function.update_self] at hc'
        exact hkeep k c' hc' e he
      · simp only [setNode, Function.update_of_ne hk] at hc'
        exact hkeep k c' hc' e he
    · obtain ⟨_, hcalls, _, _⟩ := (s.node n).onMessage_frame n j kv msg'
      by_cases hk : k = n
      · subst hk
        simp only [handled, setNode, Function.update_self, hcalls] at hc'
        exact hkeep k c' hc' e he
      · simp only [handled, setNode, Function.update_of_ne hk] at hc'
        exact hkeep k c' hc' e he

end KvSwarm

/-- While no message is handled twice and every write request is handled by one `KVStore` of its
node, the number that `quorum_put` returns is at most the number of nodes that have held the
written entry or a newer one. -/
theorem quorum_acks_honest {s s' : KvSwarm ν α} (h : Run KvSwarm.step KvSwarm.init past s)
    (hm : ∀ p ∈ past, p.1.Meets p.2) (hs : s.step (.finish n i) = some s')
    (hret : s'.returned = s.returned ++ [⟨key, e, count⟩]) :
    ∃ S : Finset ν, count ≤ S.card ∧
      ∀ m ∈ S, ∃ t, Visited past s t ∧ t.Holds m key e.version := by
  obtain ⟨c, hc, he, rfl, rfl⟩ := KvSwarm.returned_finish hs hret
  have hok := KvSwarm.Ok.of_run h hm
  obtain ⟨hself, hle⟩ := hok.ackCount_le hc
  refine ⟨insert n (s.ackers c.req), ?_, ?_⟩
  · rw [Finset.card_insert_of_notMem hself]
    exact hle
  · intro m hmem
    rcases Finset.mem_insert.1 hmem with rfl | hacker
    · exact KvSwarm.began_of_run h m c hc e he
    · rw [KvSwarm.ackers, List.mem_toFinset, List.mem_map] at hacker
      obtain ⟨msg, hmsg, rfl⟩ := hacker
      obtain ⟨hmsg, hresp⟩ := List.mem_filter.1 hmsg
      obtain ⟨req, hreq, key, d, hb, t, ht, hheld⟩ :=
        KvSwarm.acknowledged_of_run h msg hmsg c.req (isWriteResp_iff.1 hresp)
      obtain ⟨hkey, hd⟩ := (hok.node n).agrees c hc req hreq key d hb
      rw [he, Option.map_some, Option.some.injEq] at hd
      subst hd
      rw [Entry.fromDict_toDict, hkey] at hheld
      exact ⟨t, ht, hheld⟩

/-- Node 0 writes to nodes 1 and 2 and waits for both; only node 1, which runs as many `KVStore`s
as `more` says beside the first, gets the request. -/
def writeToTwo (more : List (KvAction (Fin 3) ℕ)) : List (KvAction (Fin 3) ℕ) :=
  [.create 0 ['k', 'v', '/'], .create 1 ['k', 'v', '/']] ++ more ++
  [.quorumPut 0 0 ['x'] (.data 7) 3 none [1, 2] 5 (fun _ => 5), .send 0 0, .send 0 0,
    .deliver 1 0, .handle 1 0]

theorem quorum_acks_honest_one_store :
    ∃ past, ∃ s s' : KvSwarm (Fin 3) ℕ, Run KvSwarm.step KvSwarm.init past s ∧
      s.step (.finish 0 0) = some s' ∧
      ∃ key e, s'.returned = s.returned ++ [⟨key, e, 2⟩] ∧
        ∃ S : Finset (Fin 3), 2 ≤ S.card ∧
          ∀ m ∈ S, ∃ t, Visited past s t ∧ t.Holds m key e.version := by
  obtain ⟨past, s, hr, hm, hs⟩ := exists_run_of_execWhere KvSwarm.step KvSwarm.Meets
    (KvSwarm.init : KvSwarm (Fin 3) ℕ)
    (writeToTwo [] ++ [.deliver 0 2, .handle 0 0])
    (fun s => (s.returned, (s.step (.finish 0 0)).map KvSwarm.returned))
    ([], some [⟨['k', 'v', '/', 'x'], ⟨.data 7, ⟨5, 0⟩, false⟩, 2⟩]) (by decide)
  obtain ⟨hnone, hstep⟩ := Prod.mk.inj hs
  obtain ⟨s', hs', hret⟩ := Option.map_eq_some_iff.1 hstep
  have hret' : s'.returned =
      s.returned ++ [⟨['k', 'v', '/', 'x'], ⟨.data 7, ⟨5, 0⟩, false⟩, 2⟩] := by
    rw [hret, hnone]
    rfl
  exact ⟨past, s, s', hr, hs', _, _, hret', quorum_acks_honest hr hm hs' hret'⟩

/-- A second `KVStore` on node 1 acknowledges the same request again, so that `quorum_put` returns
3 although node 2 has never held an entry for the key. -/
theorem second_store_acks_again :
    ∃ past, ∃ s s' : KvSwarm (Fin 3) ℕ, Run KvSwarm.step KvSwarm.init past s ∧
      s.step (.finish 0 0) = some s' ∧
      ∃ key e, s'.returned = s.returned ++ [⟨key, e, 3⟩] ∧
        ¬ ∃ S : Finset (Fin 3), 3 ≤ S.card ∧
          ∀ m ∈ S, ∃ t, Visited past s t ∧ t.Holds m key e.version := by
  obtain ⟨past, s, hr, hempty, hs⟩ := exists_run_of_execWhere KvSwarm.step
    (fun s _ => (s.node 2).store.data.get ['k', 'v', '/', 'x'] = none)
    (KvSwarm.init : KvSwarm (Fin 3) ℕ)
    (writeToTwo [.create 1 ['a', '/']] ++
      [.handle 1 0, .deliver 0 2, .deliver 0 3, .handle 0 0, .handle 0 1])
    (fun s => ((s.node 2).store.data.get ['k', 'v', '/', 'x'], s.returned,
      (s.step (.finish 0 0)).map KvSwarm.returned))
    (none, [], some [⟨['k', 'v', '/', 'x'], ⟨.data 7, ⟨5, 0⟩, false⟩, 3⟩]) (by decide)
  simp only [Prod.mk.injEq] at hs
  obtain ⟨hlast, hnone, hstep⟩ := hs
  obtain ⟨s', hs', hret⟩ := Option.map_eq_some_iff.1 hstep
  refine ⟨past, s, s', hr, hs', ['k', 'v', '/', 'x'], ⟨.data 7, ⟨5, 0⟩, false⟩, ?_, ?_⟩
  · rw [hret, hnone]
    rfl
  · rintro ⟨S, hcard, hS⟩
    have htwo : (2 : Fin 3) ∈ S := by
      have hall : S = Finset.univ := by
        apply Finset.eq_univ_of_card
        have hle := Finset.card_le_univ S
        rw [Fintype.card_fin] at hle ⊢
        omega
      rw [hall]
      exact Finset.mem_univ _
    obtain ⟨t, ht, e, hget, _⟩ := hS 2 htwo
    rcases ht with rfl | ⟨a, ha⟩
    · rw [hlast] at hget
      cases hget
    · rw [hempty _ ha] at hget
      cases hget

end Suprime
