import Suprime.PubSub

namespace Suprime
set_option autoImplicit true

namespace PtSwarm

variable {ν μ β : Type} [DecidableEq ν] [DecidableEq μ]

section
omit [DecidableEq μ]

theorem Moves.sent {s : PtSwarm ν μ β} (h : Moves s a n o i t) : t.sent = s.sent := by
  cases h <;> rfl

end

theorem sent_step {s t : PtSwarm ν μ β} (h : s.step a = some t) : s.sent ⊆ t.sent := by
  intro m hm
  obtain ⟨n, o, i, t₀, r, hmoves, _, rfl⟩ | ⟨j, _, rfl⟩ | ⟨n, _, rfl⟩ | ⟨n, l, _, rfl⟩ :=
    step_cases h
  · rw [ran_sent, hmoves.sent]
    exact List.mem_append_left _ hm
  · exact hm
  · exact hm
  · exact hm

section
omit [DecidableEq μ]

theorem mem_threads_of_ran {s : PtSwarm ν μ β} {r : PtResult ν μ β} (h : u ∈ s.threads k) :
    u ∈ (s.ran n r).threads k := by
  rw [ran_threads]
  by_cases hk : k = n
  · rw [hk, Function.update_self]
    exact List.mem_append_left _ (hk ▸ h)
  · rw [Function.update_of_ne hk]
    exact h

end

theorem push_step {s t : PtSwarm ν μ β} (h : s.step a = some t)
    (hth : .push peers mid payload sender ∈ s.threads k) :
    .push peers mid payload sender ∈ t.threads k ∨
      (∃ peer rest, peers = peer :: rest ∧ ⟨k, peer, .gossip mid payload⟩ ∈ t.sent ∧
        .push rest mid payload sender ∈ t.threads k) ∨
      ∃ j o, peers = [] ∧ a = .resume k j o ∧
        (s.threads k)[j]? = some (.push [] mid payload sender) := by
  obtain ⟨n, o, i, t₀, r, hmoves, hr, rfl⟩ | ⟨j, _, rfl⟩ | ⟨n, _, rfl⟩ | ⟨n, l, _, rfl⟩ :=
    step_cases h
  · cases hmoves with
    | broadcast _ _ => exact .inl (mem_threads_of_ran hth)
    | deliver _ _ => exact .inl (mem_threads_of_ran hth)
    | tick _ => exact .inl (mem_threads_of_ran hth)
    | @resume _ j _ u _ hu =>
      by_cases hk : k = n
      · subst hk
        cases mem_eraseIdx_or hu hth with
        | inl he =>
          subst he
          obtain ⟨peer, rest, rfl, rfl⟩ | ⟨order, rfl, _, rfl⟩ := Plumtree.pushOn_spec hr
          · refine .inr (.inl ⟨peer, rest, rfl, ?_, ?_⟩)
            · rw [ran_sent]
              exact List.mem_append_right _ List.mem_cons_self
            · rw [ran_threads, Function.update_self]
              exact List.mem_append_right _ List.mem_cons_self
          · exact .inr (.inr ⟨j, o, rfl, rfl, hu⟩)
        | inr hm =>
          apply Or.inl
          apply mem_threads_of_ran
          simp only [Function.update_self]
          exact hm
      · apply Or.inl
        apply mem_threads_of_ran
        simp only [Function.update_of_ne hk]
        exact hth
  · exact .inl hth
  · exact .inl hth
  · exact .inl hth

/-- A node that takes in an id goes on with a push from the state in which it has entered it. -/
theorem news_step {s t : PtSwarm ν μ β} (h : s.step a = some t) (hw : s.news a = some w) :
    ∃ o r, (s.entered w).eagerPush w.mid w.payload w.sender o = some r ∧
      (∀ n, a ≠ .tick n) ∧ (∀ n j o, a ≠ .resume n j o) ∧ t.node w.node = r.node ∧
      (∀ q ∈ r.out, ⟨w.node, q.1, q.2.1⟩ ∈ t.sent ∧ q.2.2 ∈ t.threads w.node) := by
  obtain ⟨n, o, i, t₀, r, hmoves, hr, rfl⟩ | ⟨j, rfl, rfl⟩ | ⟨n, rfl, rfl⟩ | ⟨n, l, rfl, rfl⟩ :=
    step_cases h
  · have hran : ((t₀.ran n r).node n = r.node) ∧
        ∀ q ∈ r.out, ⟨n, q.1, q.2.1⟩ ∈ (t₀.ran n r).sent ∧ q.2.2 ∈ (t₀.ran n r).threads n := by
      rw [ran_node, Function.update_self]
      refine ⟨rfl, ?_⟩
      intro q hq
      rw [Option.mem_def] at hq
      rw [ran_sent, ran_threads, Function.update_self, hq]
      exact ⟨List.mem_append_right _ List.mem_cons_self,
        List.mem_append_right _ List.mem_cons_self⟩
    cases hmoves with
    | @broadcast _ mid payload o _ _ =>
      cases hw
      refine ⟨o, r, ?_, fun _ h => (by cases h), fun _ _ _ h => (by cases h), hran⟩
      exact (Plumtree.broadcast_eq _ _ _ _).symm.trans hr
    | @deliver _ msg o hmsg _ =>
      obtain ⟨src, dst, body⟩ := msg
      rw [news, hmsg] at hw
      cases body with
      | gossip mid payload =>
        simp only at hw
        split at hw
        · rename_i hnone
          cases hw
          refine ⟨o, r, ?_, fun _ h => (by cases h), fun _ _ _ h => (by cases h), hran⟩
          exact (Plumtree.onGossip_new hnone).symm.trans hr
        · cases hw
      | ihave ids => cases hw
      | prune => cases hw
      | graft mid => cases hw
    | resume _ _ => cases hw
    | tick _ => cases hw
  · cases hw
  · cases hw
  · cases hw

end PtSwarm

namespace PsSwarm

variable {ν μ τ δ σ : Type} [DecidableEq ν] [DecidableEq μ] [DecidableEq τ]

theorem callAll_of_not_raised {raises : ℕ → Bool} {l : List σ}
    (h : (callAll raises l).2 = false) : (callAll raises l).1 = l := by
  induction l generalizing raises with
  | nil => rfl
  | cons c l ih =>
    rw [callAll] at h ⊢
    split
    · rename_i hr
      rw [if_pos hr] at h
      cases h
    · rename_i hr
      rw [if_neg hr] at h
      exact congrArg (c :: ·) (ih h)

theorem callAll_of_raised {raises : ℕ → Bool} {l : List σ} (h : (callAll raises l).2 = true) :
    ∃ i < l.length, raises i = true ∧ (callAll raises l).1 = l.take (i + 1) := by
  induction l generalizing raises with
  | nil => cases h
  | cons c l ih =>
    rw [callAll] at h ⊢
    by_cases hr : raises 0 = true
    · rw [if_pos hr]
      exact ⟨0, Nat.zero_lt_succ _, hr, rfl⟩
    · rw [if_neg hr] at h ⊢
      obtain ⟨i, hi, hri, htake⟩ := ih h
      exact ⟨i + 1, Nat.succ_lt_succ hi, hri, congrArg (c :: ·) htake⟩

/-- What an intake still has to send is in a suspended push. -/
def Sending (t : PtSwarm ν μ (PsEnvelope τ δ)) (i : Intake ν μ (PsEnvelope τ δ) σ) : Prop :=
  ∀ peer ∈ i.eager, some peer ≠ i.sender →
    ⟨i.node, peer, .gossip i.mid i.payload⟩ ∈ t.sent ∨
      ∃ peers, .push peers i.mid i.payload i.sender ∈ t.threads i.node ∧ peer ∈ peers

/-- The handler of an intake has ended or is suspended. -/
def Going (endings : List (Ending ν μ)) (t : PtSwarm ν μ (PsEnvelope τ δ))
    (i : Intake ν μ (PsEnvelope τ δ) σ) : Prop :=
  (∃ e ∈ endings, e.node = i.node ∧ e.mid = i.mid ∧ e.sender = i.sender) ∨
    ∃ peers, .push peers i.mid i.payload i.sender ∈ t.threads i.node

/-- An ended handler has announced the id to the lazy peers. -/
def Announced (e : Ending ν μ) : Prop :=
  ∀ peer ∈ e.lazy, some peer ≠ e.sender → (peer, e.mid) ∈ e.queued

section
omit [DecidableEq τ]

theorem Sending.step {s t : PtSwarm ν μ (PsEnvelope τ δ)} {i : Intake ν μ (PsEnvelope τ δ) σ}
    (hi : Sending s i) (h : s.step a = some t) : Sending t i := by
  intro peer hp hne
  cases hi peer hp hne with
  | inl hsent => exact .inl (PtSwarm.sent_step h hsent)
  | inr hth =>
    obtain ⟨peers, hth, hmem⟩ := hth
    obtain hth | ⟨q, rest, rfl, hsent, hth⟩ | ⟨j, o, rfl, _, _⟩ := PtSwarm.push_step h hth
    · exact .inr ⟨peers, hth, hmem⟩
    · cases List.mem_cons.1 hmem with
      | inl he => exact .inl (he ▸ hsent)
      | inr hmem => exact .inr ⟨rest, hth, hmem⟩
    · cases hmem

theorem Going.step {s t : PtSwarm ν μ (PsEnvelope τ δ)} {i : Intake ν μ (PsEnvelope τ δ) σ}
    {endings : List (Ending ν μ)} (hi : Going endings s i) (h : s.step a = some t) :
    Going (endings ++ endingsOf s t a) t i := by
  cases hi with
  | inl he =>
    obtain ⟨e, he, hfields⟩ := he
    exact .inl ⟨e, List.mem_append_left _ he, hfields⟩
  | inr hth =>
    obtain ⟨peers, hth⟩ := hth
    obtain hth | ⟨q, rest, rfl, _, hth⟩ | ⟨j, o, rfl, rfl, hj⟩ := PtSwarm.push_step h hth
    · exact .inr ⟨peers, hth⟩
    · exact .inr ⟨rest, hth⟩
    · refine .inl ⟨ending s t i.node i.mid i.sender, List.mem_append_right _ ?_, rfl, rfl, rfl⟩
      simp only [endingsOf, hj]
      exact List.mem_singleton_self _

end

section
omit [DecidableEq μ] [DecidableEq τ]

theorem announced_of_push {s t : PtSwarm ν μ (PsEnvelope τ δ)} {n : ν}
    {x : Plumtree ν μ (PsEnvelope τ δ)} {r : PtResult ν μ (PsEnvelope τ δ)}
    (hr : x.pushOn [] mid payload sender o = some r) (hx : x.lazyQueue = (s.node n).lazyQueue)
    (ht : t.node n = r.node) : Announced (ending s t n mid sender) := by
  obtain ⟨peer, rest, he, _⟩ | ⟨order, _, ho, rfl⟩ := Plumtree.pushOn_spec hr
  · cases he
  · intro peer hp hne
    have hmem : peer ∈ order := (Plumtree.mem_of_listing ho).2 (by rw [ending, ht] at hp; exact hp)
    rw [ending, ht, Plumtree.lazyPush, hx, List.drop_left]
    apply List.mem_map_of_mem (f := fun peer => (peer, mid))
    exact List.mem_filter.2 ⟨hmem, decide_eq_true hne⟩

end

section
omit [DecidableEq τ]

theorem lazyQueue_entered (s : PtSwarm ν μ (PsEnvelope τ δ)) (w : News ν μ (PsEnvelope τ δ)) :
    (s.entered w).lazyQueue = (s.node w.node).lazyQueue := by
  rw [PtSwarm.entered]
  cases w.sender with
  | none => exact (Plumtree.record_fields _ _ _).2.2.1
  | some src => exact (Plumtree.record_fields _ _ _).2.2.1

theorem of_news {s t : PtSwarm ν μ (PsEnvelope τ δ)} (h : s.step a = some t)
    (hw : s.news a = some w) {i : Intake ν μ (PsEnvelope τ δ) σ} (hnode : i.node = w.node)
    (hmid : i.mid = w.mid) (hpayload : i.payload = w.payload) (hsender : i.sender = w.sender)
    (heager : i.eager = (t.node w.node).eager) (endings : List (Ending ν μ)) :
    Sending t i ∧ Going (endings ++ endingsOf s t a) t i ∧
      ∀ e ∈ endingsOf s t a, Announced e := by
  obtain ⟨o, r, hr, htick, hresume, hn, hout⟩ := PtSwarm.news_step h hw
  obtain ⟨order, ho, hpush⟩ := Plumtree.eagerPush_spec hr
  have hkeep := (Plumtree.pushOn_fields hpush).2.2.2.1
  have hpeers : ∀ peer ∈ i.eager, some peer ≠ i.sender →
      peer ∈ order.filter (fun peer => some peer ≠ w.sender) := by
    intro peer hp hne
    rw [heager, hn, hkeep] at hp
    rw [hsender] at hne
    exact List.mem_filter.2 ⟨(Plumtree.mem_of_listing ho).2 hp, decide_eq_true hne⟩
  have hends : endingsOf s t a =
      if idle (t.node w.node) w.sender then [ending s t w.node w.mid w.sender] else [] := by
    cases a with
    | resume n j o => exact absurd rfl (hresume n j o)
    | _ => simp only [endingsOf, hw]
  have hidle : idle (t.node w.node) w.sender = true ↔
      order.filter (fun peer => some peer ≠ w.sender) = [] := by
    rw [idle, decide_eq_true_eq, List.filter_eq_nil_iff, hn, hkeep]
    simp only [Plumtree.mem_of_listing ho, decide_eq_true_eq, not_not]
  rw [hends]
  obtain ⟨peer, rest, he, rfl⟩ | ⟨lazyOrder, he, hlazy, rfl⟩ := Plumtree.pushOn_spec hpush
  · obtain ⟨hsent, hth⟩ := hout _ rfl
    have hbusy : idle (t.node w.node) w.sender = false := by
      rw [← Bool.not_eq_true, hidle, he]
      exact fun h => by cases h
    rw [hbusy, if_neg Bool.false_ne_true, List.append_nil]
    refine ⟨?_, .inr ⟨rest, ?_⟩, fun e he => by cases he⟩
    · intro p hp hne
      have hmem := hpeers p hp hne
      rw [he] at hmem
      rw [hnode, hmid, hpayload, hsender]
      cases List.mem_cons.1 hmem with
      | inl hpe => exact .inl (hpe ▸ hsent)
      | inr hmem => exact .inr ⟨rest, hth, hmem⟩
    · rw [hnode, hmid, hpayload, hsender]
      exact hth
  · rw [hidle.2 he, if_pos rfl]
    refine ⟨?_, .inl ⟨_, List.mem_append_right _ (List.mem_singleton_self _), ?_⟩, ?_⟩
    · intro p hp hne
      have hmem := hpeers p hp hne
      rw [he] at hmem
      cases hmem
    · exact ⟨hnode.symm, hmid.symm, hsender.symm⟩
    · intro e hmem
      rw [List.mem_singleton.1 hmem]
      rw [he] at hpush
      exact announced_of_push hpush (lazyQueue_entered s w) hn

theorem announced_endingsOf {s t : PtSwarm ν μ (PsEnvelope τ δ)} (h : s.step a = some t)
    (hw : s.news a = none) : ∀ e ∈ endingsOf s t a, Announced e := by
  intro e he
  cases a with
  | resume n j o =>
    simp only [endingsOf] at he
    split at he
    · rename_i mid payload sender hth
      rw [List.mem_singleton.1 he]
      obtain ⟨_, _, _, _, r, hmoves, hr, rfl⟩ | ⟨_, ha, _⟩ | ⟨_, ha, _⟩ | ⟨_, _, ha, _⟩ :=
        PtSwarm.step_cases h
      · cases hmoves with
        | resume hn hu =>
          rw [hth] at hu
          cases hu
          have hpush : (s.node n).pushOn [] mid payload sender o = some r := hr
          apply announced_of_push hpush rfl
          rw [PtSwarm.ran_node, Function.update_self]
      · cases ha
      · cases ha
      · cases ha
    · cases he
  | _ =>
    simp only [endingsOf, hw] at he
    cases he

end

section
omit [DecidableEq μ] [DecidableEq τ] [DecidableEq ν]

theorem spreads_iff (s : PsSwarm ν μ τ δ σ) : Spreads s ↔
    (∀ i ∈ s.intakes, i.called = i.subscribers ∧ Sending s.pt i ∧ Going s.endings s.pt i) ∧
      ∀ e ∈ s.endings, Announced e := by
  constructor
  · intro h
    exact ⟨fun i hi => ⟨h.calls i hi, h.sends i hi, h.ends i hi⟩, h.queues⟩
  · intro h
    exact ⟨fun i hi => (h.1 i hi).1, fun i hi => (h.1 i hi).2.1, fun i hi => (h.1 i hi).2.2, h.2⟩

theorem spreads_init (neighbors : ν → List ν) (graftTimeout cacheCap : ν → ℕ) :
    Spreads (init neighbors graftTimeout cacheCap : PsSwarm ν μ τ δ σ) := by
  rw [spreads_iff]
  exact ⟨fun i hi => (nomatch hi), fun e he => (nomatch he)⟩

end

section
omit [DecidableEq τ]

theorem abort_sent (s : PtSwarm ν μ (PsEnvelope τ δ)) (w : News ν μ (PsEnvelope τ δ))
    (a : PtAction ν μ (PsEnvelope τ δ)) :
    (s.abort w a).sent = s.sent ∧ (s.abort w a).threads = s.threads := by
  cases a <;> exact ⟨rfl, rfl⟩

theorem abort_node {s : PtSwarm ν μ (PsEnvelope τ δ)} {w : News ν μ (PsEnvelope τ δ)}
    {a : PtAction ν μ (PsEnvelope τ δ)} (hw : s.news a = some w) :
    (s.abort w a).node w.node = s.entered w := by
  cases a with
  | broadcast n mid payload o => exact Function.update_self _ _ _
  | deliver i o => exact Function.update_self _ _ _
  | resume n j o => cases hw
  | tick n => cases hw
  | lose i => cases hw
  | crash n => cases hw
  | setNeighbors n neighbors => cases hw

theorem entered_alone {s : PtSwarm ν μ (PsEnvelope τ δ)} {w : News ν μ (PsEnvelope τ δ)}
    (h : Alone (s.node w.node) w.sender) :
    ∀ peer ∈ (s.entered w).eager ∪ (s.entered w).lazy, some peer = w.sender := by
  intro peer hp
  rw [PtSwarm.entered] at hp
  cases hsender : w.sender with
  | none =>
    rw [hsender] at h hp
    have hno : (s.node w.node).neighbors = [] := h
    simp [Plumtree.started, Plumtree.syncNeighbors, Plumtree.record_fields, hno] at hp
  | some src =>
    rw [hsender] at h hp
    have hmem : peer = src ∨ peer ∈ (s.node w.node).eager ∪ (s.node w.node).lazy := by
      simp only [Plumtree.admitted, Finset.mem_union, Finset.mem_insert, Finset.mem_erase] at hp ⊢
      tauto
    cases hmem with
    | inl he => rw [he]
    | inr hmem => rw [h peer hmem]

end

/-- A step keeps what is owed to every intake when no subscriber raises where it matters. -/
theorem Spreads.step {s s' : PsSwarm ν μ τ δ σ} {a : PsAction ν μ τ δ σ} (hs : Spreads s)
    (hC : Harmless s a) (h : s.step a = some s') : Spreads s' := by
  rw [spreads_iff] at hs ⊢
  obtain ⟨hi, he⟩ := hs
  cases a with
  | subscribe n topic callback =>
    cases h
    exact ⟨hi, he⟩
  | unsubscribe n topic =>
    cases h
    exact ⟨hi, he⟩
  | plumtree a raises =>
    obtain ⟨t, ht, h⟩ := Option.bind_eq_some_iff.1 h
    have hold : ∀ i ∈ s.intakes, i.called = i.subscribers ∧ Sending t i ∧
        Going (s.endings ++ endingsOf s.pt t a) t i := by
      intro i hmem
      obtain ⟨hcalled, hsending, hgoing⟩ := hi i hmem
      exact ⟨hcalled, hsending.step ht, hgoing.step ht⟩
    cases hw : s.pt.news a with
    | none =>
      rw [hw] at h
      cases h
      refine ⟨hold, ?_⟩
      intro e hmem
      cases List.mem_append.1 hmem with
      | inl hmem => exact he e hmem
      | inr hmem => exact announced_endingsOf ht hw e hmem
    | some w =>
      simp only [hw] at h
      cases hraised : (callAll raises (s.subscribers w.node w.payload.topic)).2 with
      | false =>
        rw [hraised, if_neg Bool.false_ne_true] at h
        cases h
        obtain ⟨hsending, hgoing, hends⟩ := of_news ht hw rfl rfl rfl rfl rfl s.endings
          (i := s.intake t w (callAll raises (s.subscribers w.node w.payload.topic)).1)
        refine ⟨?_, ?_⟩
        · intro i hmem
          cases List.mem_append.1 hmem with
          | inl hmem => exact hold i hmem
          | inr hmem =>
            rw [List.mem_singleton.1 hmem]
            exact ⟨callAll_of_not_raised hraised, hsending, hgoing⟩
        · intro e hmem
          cases List.mem_append.1 hmem with
          | inl hmem => exact he e hmem
          | inr hmem => exact hends e hmem
      | true =>
        rw [hraised, if_pos rfl] at h
        cases h
        simp only [Harmless, hw] at hC
        obtain ⟨i, hlt, hri, htake⟩ := callAll_of_raised hraised
        obtain ⟨hlast, halone⟩ := hC i hlt hri
        rw [List.take_of_length_le hlast.ge] at htake
        replace halone := entered_alone halone
        have hnode := abort_node hw
        obtain ⟨hsent, hthreads⟩ := abort_sent s.pt w a
        refine ⟨?_, ?_⟩
        · intro i hmem
          cases List.mem_append.1 hmem with
          | inl hmem =>
            obtain ⟨hcall, hsending, hgoing⟩ := hi i hmem
            refine ⟨hcall, ?_, ?_⟩
            · rw [Sending, hsent, hthreads]
              exact hsending
            · cases hgoing with
              | inl hend =>
                obtain ⟨e, hend, hfields⟩ := hend
                exact .inl ⟨e, List.mem_append_left _ hend, hfields⟩
              | inr hth => exact .inr (hthreads ▸ hth)
          | inr hmem =>
            rw [List.mem_singleton.1 hmem]
            refine ⟨htake, ?_, .inl ⟨_, List.mem_append_right _ List.mem_cons_self,
              rfl, rfl, rfl⟩⟩
            intro peer hp hne
            rw [intake, hnode] at hp
            exact absurd (halone peer (Finset.mem_union_left _ hp)) hne
        · intro e hmem
          cases List.mem_append.1 hmem with
          | inl hmem => exact he e hmem
          | inr hmem =>
            rw [List.mem_singleton.1 hmem]
            intro peer hp hne
            rw [ending, hnode] at hp
            exact absurd (halone peer (Finset.mem_union_right _ hp)) hne

/-- Every message reaches the subscribers and goes on to the peers in a run in which a subscriber
raises only where nothing is left to do. -/
theorem spreads_of_harmless {neighbors : ν → List ν} {graftTimeout cacheCap : ν → ℕ}
    {past : List (PsSwarm ν μ τ δ σ × PsAction ν μ τ δ σ)} {s : PsSwarm ν μ τ δ σ}
    (h : Run step (init neighbors graftTimeout cacheCap) past s)
    (hC : ∀ p ∈ past, Harmless p.1 p.2) : Spreads s :=
  h.invariant hC (spreads_init neighbors graftTimeout cacheCap)
    (fun _ _ _ hs hc ht => hs.step hc ht)

instance (x : Plumtree ν μ (PsEnvelope τ δ)) (sender : Option ν) : Decidable (Alone x sender) := by
  cases sender <;> unfold Alone <;> infer_instance

instance (s : PsSwarm ν μ τ δ σ) (a : PsAction ν μ τ δ σ) [DecidableEq σ] :
    Decidable (Harmless s a) := by
  cases a with
  | plumtree a raises =>
    simp only [Harmless]
    cases s.pt.news a <;> infer_instance
  | subscribe n topic callback => exact isTrue trivial
  | unsubscribe n topic => exact isTrue trivial

def row : PsSwarm (Fin 3) ℕ ℕ ℕ ℕ :=
  init (fun n => if n = 1 then [0, 2] else [1]) (fun _ => 3) (fun _ => 10)

/-- The middle node has two subscribers, and the first message reaches it. -/
def upToMiddle (raises : ℕ → Bool) : List (PsAction (Fin 3) ℕ ℕ ℕ ℕ) :=
  [.subscribe 1 7 50, .subscribe 1 7 51, .subscribe 2 7 52, .plumtree (.tick 1) raises,
    .plumtree (.tick 2) raises, .plumtree (.broadcast 0 30 ⟨7, 5⟩ ⟨[1], []⟩) raises,
    .plumtree (.deliver 0 ⟨[0, 2], []⟩) raises]

/-- A subscriber that raises at the end of the row does no harm. -/
theorem spreads_of_harmless_last : ∃ past s, Run step row past s ∧ s.intakes.length = 3 ∧
    s.endings.length = 1 ∧ Spreads s := by
  obtain ⟨past, s, hr, hC, hs⟩ := exists_run_of_execWhere step Harmless row
    (upToMiddle (fun _ => false) ++ [.plumtree (.deliver 0 ⟨[1], []⟩) (fun _ => true)])
    (fun s => (s.intakes.length, s.endings.length)) (3, 1) (by decide)
  cases Prod.mk.inj hs with
  | intro hi he => exact ⟨past, s, hr, hi, he, spreads_of_harmless hr hC⟩

/-- The first subscriber of the middle node raises: the second one is not called and the last node
is not sent the message. -/
theorem throwing_subscriber_stops : ¬ ∀ (past : List (PsSwarm (Fin 3) ℕ ℕ ℕ ℕ × _)) (s : _),
    Run step row past s → Spreads s := by
  intro hclaim
  obtain ⟨past, s, hr, hs⟩ := exists_run_of_exec step row (upToMiddle (fun i => decide (i = 0)))
    (fun s => decide (∃ i ∈ s.intakes, i.called ≠ i.subscribers ∧ 2 ∈ i.eager ∧
      i.sender = some 0 ∧ (s.pt.threads i.node).length = 0 ∧ ∀ m ∈ s.pt.sent, m.dst ≠ 2)) true
    (by decide)
  obtain ⟨i, hi, _, heager, hsender, hth, hsent⟩ := of_decide_eq_true hs
  have hne : some (2 : Fin 3) ≠ i.sender := by
    rw [hsender]
    decide
  cases (hclaim past s hr).sends i hi 2 heager hne with
  | inl hmem => exact hsent _ hmem rfl
  | inr hmem =>
    obtain ⟨peers, hmem, _⟩ := hmem
    rw [List.length_eq_zero_iff.1 hth] at hmem
    cases hmem

end PsSwarm

end Suprime
