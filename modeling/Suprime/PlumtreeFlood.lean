import Suprime.FloodTree
import Suprime.PlumtreeKeeps
import Suprime.PlumtreeRuns

namespace Suprime
set_option autoImplicit true

section Fits

variable {ν μ β : Type}

/-- The peers to which a suspended push has still to send. -/
def PtThread.pushes : PtThread ν μ β → List ν
  | .push peers _ _ _ => peers
  | _ => []

def PtThread.isPush : PtThread ν μ β → Bool
  | .push _ _ _ _ => true
  | _ => false

/-- A suspended handler pushes the message of a flood, if there is one, or announces earlier
messages, or has nothing left to do. -/
def PtThread.Fits (bs : List (μ × β)) (q : Option (μ × β)) : PtThread ν μ β → Prop
  | .push _ mid payload _ => q = some (mid, payload)
  | .flush byPeer => ∀ e ∈ byPeer, ∀ m ∈ e.2, m ∈ bs.map Prod.fst
  | .repair _ => False
  | .done => True

/-- In flight are the message of a flood and refusals of it, if there is one, and announcements of
earlier messages. -/
def PtBody.Fits (bs : List (μ × β)) (q : Option (μ × β)) : PtBody μ β → Prop
  | .gossip mid payload => q = some (mid, payload)
  | .ihave ids => ∀ m ∈ ids, m ∈ bs.map Prod.fst
  | .prune => q ≠ none
  | .graft _ => False

def PtBody.isGossip : PtBody μ β → Bool
  | .gossip _ _ => true
  | _ => false

def PtBody.isIhave : PtBody μ β → Bool
  | .ihave _ => true
  | _ => false

/-- The copy on a link that a message in flight is or refuses. -/
def PtMessage.copy (msg : PtMessage ν μ β) : Option (ν × ν × Copy) :=
  match msg.body with
  | .gossip _ _ => some (msg.src, msg.dst, .flying)
  | .prune => some (msg.dst, msg.src, .surplus)
  | _ => none

def gossips (l : List (PtMessage ν μ β)) : ℕ := l.countP (fun msg => msg.body.isGossip)

/-- The steps that a suspended handler can still cause when nothing has to be pushed. -/
def PtThread.load : PtThread ν μ β → ℕ
  | .flush byPeer => 2 * byPeer.length + 1
  | _ => 1

def PtBody.load : PtBody μ β → ℕ
  | .ihave _ => 1
  | _ => 0

def threadsLoad (l : List (PtThread ν μ β)) : ℕ := (l.map PtThread.load).sum

def messagesLoad (l : List (PtMessage ν μ β)) : ℕ := (l.map (fun msg => msg.body.load)).sum

def PtSwarm.load [Fintype ν] (s : PtSwarm ν μ β) : ℕ :=
  ∑ n, threadsLoad (s.threads n) + messagesLoad s.inFlight

end Fits

namespace PtSwarm

variable {ν μ β : Type} [DecidableEq ν] [DecidableEq μ]

/-- The receiver of the message remembers the announced ids that it has delivered, and gets no
second copy of a payload when it can cache nothing. -/
def Recalls (s : PtSwarm ν μ β) (msg : PtMessage ν μ β) : Prop :=
  match msg.body with
  | .gossip mid _ =>
    (s.node msg.dst).cacheCap = 0 → mid ∉ (s.node msg.dst).delivered.map Prod.fst
  | .ihave ids => ∀ mid ∈ ids, mid ∈ (s.node msg.dst).delivered.map Prod.fst →
    (s.node msg.dst).received.get mid ≠ none
  | _ => True

/-- The broadcasts that a node has got when the one of `q` floods from `root`. -/
noncomputable def held (f : Flood ν) (root : ν) (bs : List (μ × β)) (q : μ × β) (n : ν) :
    List (μ × β) :=
  open Classical in if f.Has root n then bs ++ [q] else bs

/-- The swarm floods `q` over the eager links `E` from `root`, after the broadcasts of a list, and
has come as far as `f` says. -/
structure Flooding (H E : SimpleGraph ν) (cap : ν → ℕ) (root : ν) (bs : List (μ × β)) (q : μ × β)
    (f : Flood ν) (s : PtSwarm ν μ β) : Prop where
  ok : f.Ok E root
  le : E ≤ H
  crashed : s.crashed = []
  used : s.used = (bs ++ [q]).map Prod.fst
  nodup : s.used.Nodup
  nodes : ∀ n, (s.node n).Keeps H n (fun a => E.Adj n a ∧ f.Live n a) (held f root bs q n) (cap n)
  fits : ∀ n, ∀ t ∈ s.threads n, t.Fits bs (some q) ∧ (t.isPush → f.Has root n)
  pending : ∀ n, Lists ((s.threads n).flatMap PtThread.pushes) (fun b => f n b = .waiting)
  bodies : ∀ msg ∈ s.inFlight, msg.body.Fits bs (some q)
  copies : Lists (s.inFlight.filterMap PtMessage.copy) f.UnderWay

section Flooding

variable {H E : SimpleGraph ν} {cap : ν → ℕ} {root : ν} {bs : List (μ × β)} {q : μ × β}
  {f f' : Flood ν} {s s' : PtSwarm ν μ β}

section
omit [DecidableEq ν] [DecidableEq μ]

theorem held_of_has (h : f.Has root n) : held f root bs q n = bs ++ [q] := if_pos h

theorem held_of_not (h : ¬f.Has root n) : held f root bs q n = bs := if_neg h

theorem held_congr (h : f'.Has root n ↔ f.Has root n) :
    held f' root bs q n = held f root bs q n := by
  by_cases hn : f.Has root n
  · rw [held_of_has hn, held_of_has (h.2 hn)]
  · rw [held_of_not hn, held_of_not (fun hn' => hn (h.1 hn'))]

theorem mem_held (hm : m ∈ bs.map Prod.fst) : m ∈ (held f root bs q n).map Prod.fst := by
  by_cases hn : f.Has root n
  · rw [held_of_has hn, List.map_append]
    exact List.mem_append_left _ hm
  · rw [held_of_not hn]
    exact hm

theorem Flooding.fresh (h : Flooding H E cap root bs q f s) : q.1 ∉ bs.map Prod.fst := by
  have hnodup := h.nodup
  rw [h.used, List.map_append, List.nodup_append] at hnodup
  exact fun hm => hnodup.2.2 q.1 hm q.1 List.mem_cons_self rfl

end

section
omit [DecidableEq μ]

theorem Flooding.change (h : Flooding H E cap root bs q f s) (hok : f'.Ok E root)
    (hnode : s'.node = Function.update s.node n x)
    (hth : s'.threads = Function.update s.threads n l)
    (hcr : s'.crashed = s.crashed) (hused : s'.used = s.used)
    (hx : x.Keeps H n (fun a => E.Adj n a ∧ f'.Live n a) (held f' root bs q n) (cap n))
    (hother : ∀ k, k ≠ n → (∀ a, f'.Live k a ↔ f.Live k a) ∧ (f'.Has root k ↔ f.Has root k) ∧
      ∀ b, f' k b = .waiting ↔ f k b = .waiting)
    (hfits : ∀ t ∈ l, t.Fits bs (some q) ∧ (t.isPush → f'.Has root n))
    (hpend : Lists (l.flatMap PtThread.pushes) (fun b => f' n b = .waiting))
    (hbodies : ∀ msg ∈ s'.inFlight, msg.body.Fits bs (some q))
    (hcopies : Lists (s'.inFlight.filterMap PtMessage.copy) f'.UnderWay) :
    Flooding H E cap root bs q f' s' := by
  constructor
  · exact hok
  · exact h.le
  · rw [hcr, h.crashed]
  · rw [hused, h.used]
  · rw [hused]
    exact h.nodup
  · intro k
    rw [hnode]
    by_cases hk : k = n
    · subst hk
      rw [Function.update_self]
      exact hx
    · obtain ⟨hlive, hhas, _⟩ := hother k hk
      rw [Function.update_of_ne hk, held_congr hhas]
      exact (h.nodes k).congr (fun a => and_congr_right (fun _ => hlive a))
  · intro k t ht
    rw [hth] at ht
    by_cases hk : k = n
    · subst hk
      rw [Function.update_self] at ht
      exact hfits t ht
    · rw [Function.update_of_ne hk] at ht
      obtain ⟨hf, hp⟩ := h.fits k t ht
      exact ⟨hf, fun hpush => (hother k hk).2.1.2 (hp hpush)⟩
  · intro k
    rw [hth]
    by_cases hk : k = n
    · subst hk
      rw [Function.update_self]
      exact hpend
    · rw [Function.update_of_ne hk]
      exact (h.pending k).congr (hother k hk).2.2
  · exact hbodies
  · exact hcopies

end

def suspend (s : PtSwarm ν μ β) (n : ν) (t : PtThread ν μ β) : PtSwarm ν μ β :=
  { s with threads := Function.update s.threads n (s.threads n ++ [t]) }

section
omit [DecidableEq μ]

theorem load_update [Fintype ν] (hth : s'.threads = Function.update s.threads n l) :
    s'.load + threadsLoad (s.threads n) + messagesLoad s.inFlight =
      s.load + threadsLoad l + messagesLoad s'.inFlight := by
  have hold := Finset.add_sum_erase Finset.univ (fun k => threadsLoad (s.threads k))
    (Finset.mem_univ n)
  have hnew := Finset.add_sum_erase Finset.univ (fun k => threadsLoad (s'.threads k))
    (Finset.mem_univ n)
  have hrest : ∑ k ∈ Finset.univ.erase n, threadsLoad (s'.threads k) =
      ∑ k ∈ Finset.univ.erase n, threadsLoad (s.threads k) := by
    apply Finset.sum_congr rfl
    intro k hk
    rw [hth, Function.update_of_ne (Finset.ne_of_mem_erase hk)]
  have hself : threadsLoad (s'.threads n) = threadsLoad l := by
    rw [hth, Function.update_self]
  unfold load
  omega

end

/-- A step of the flood sends the copies it counts, and less is left to do. -/
structure Advances [Fintype ν] (f : Flood ν) (s : PtSwarm ν μ β) (f' : Flood ν)
    (s' : PtSwarm ν μ β) : Prop where
  sends : gossips s'.sent + f.sends = gossips s.sent + f'.sends
  effort : 2 * f'.work + s'.load < 2 * f.work + s.load

section
omit [DecidableEq μ]

theorem suspend_threads (s : PtSwarm ν μ β) (n : ν) (t : PtThread ν μ β) :
    (s.suspend n t).threads n = s.threads n ++ [t] :=
  Function.update_self _ _ _

/-- The threads after a part of a handler, seen from the state in which it was suspended. -/
theorem ran_suspend (s : PtSwarm ν μ β) (n : ν) (t : PtThread ν μ β) (r : PtResult ν μ β) :
    (s.ran n r).threads = Function.update (s.suspend n t).threads n
      (s.threads n ++ (r.out.map (fun q => q.2.2)).toList) := by
  rw [ran_threads, suspend, Function.update_idem]

end

section
omit [DecidableEq ν] [DecidableEq μ]

theorem flatMap_pushes (l : List (PtThread ν μ β)) (t : PtThread ν μ β) :
    (l ++ [t]).flatMap PtThread.pushes = l.flatMap PtThread.pushes ++ t.pushes := by
  rw [List.flatMap_append, List.flatMap_cons, List.flatMap_nil, List.append_nil]

theorem threadsLoad_concat (l : List (PtThread ν μ β)) (t : PtThread ν μ β) :
    threadsLoad (l ++ [t]) = threadsLoad l + t.load := by
  rw [threadsLoad, List.map_append, List.sum_append, List.map_singleton, List.sum_singleton]
  rfl

theorem messagesLoad_concat (l : List (PtMessage ν μ β)) (msg : PtMessage ν μ β) :
    messagesLoad (l ++ [msg]) = messagesLoad l + msg.body.load := by
  rw [messagesLoad, List.map_append, List.sum_append, List.map_singleton, List.sum_singleton]
  rfl

end

section
omit [DecidableEq μ]

theorem Flooding.suspended
    (h : Flooding H E cap root bs q f (s.suspend n (.push peers q.1 q.2 sender))) :
    f.Has root n ∧ (∀ t ∈ s.threads n, t.Fits bs (some q) ∧ (t.isPush → f.Has root n)) ∧
      Lists ((s.threads n).flatMap PtThread.pushes ++ peers) (fun b => f n b = .waiting) := by
  have hpend := h.pending n
  have hfits := h.fits n
  rw [suspend_threads] at hpend hfits
  rw [flatMap_pushes] at hpend
  exact ⟨(hfits _ (List.mem_append_right _ List.mem_cons_self)).2 rfl,
    fun t ht => hfits t (List.mem_append_left _ ht), hpend⟩

theorem Flooding.push_send [Fintype ν]
    (h : Flooding H E cap root bs q f (s.suspend n (.push (peer :: rest) q.1 q.2 sender))) :
    let r : PtResult ν μ β :=
      ⟨s.node n, some (peer, .gossip q.1 q.2, .push rest q.1 q.2 sender)⟩
    Flooding H E cap root bs q (f.set n peer .flying) (s.ran n r) ∧
      Advances f (s.suspend n (.push (peer :: rest) q.1 q.2 sender)) (f.set n peer .flying)
        (s.ran n r) := by
  intro r
  obtain ⟨hhas, hold, hpend⟩ := h.suspended
  have hthreads := ran_suspend s n (.push (peer :: rest) q.1 q.2 sender) r
  obtain ⟨hused, _, hcr⟩ := ran_history s n r
  have hwait : f n peer = .waiting :=
    (hpend.2 peer).1 (List.mem_append_right _ List.mem_cons_self)
  have hne : f n peer ≠ .idle ∧ f n peer ≠ .first := by
    rw [hwait]
    exact ⟨Copy.noConfusion, Copy.noConfusion⟩
  have hsame : ∀ k, (f.set n peer .flying).Has root k ↔ f.Has root k :=
    fun k => Flood.has_set hne.2 Copy.noConfusion
  refine ⟨?_, ?_, ?_⟩
  · apply h.change ?_ (ran_node s n _) hthreads hcr hused
    · rw [held_congr (hsame n)]
      exact (h.nodes n).congr (fun a => and_congr_right (fun _ => Flood.live_send hwait))
    · intro k hk
      refine ⟨fun a => Flood.live_send hwait, hsame k, fun b => ?_⟩
      rw [Flood.set_of_ne (fun he => hk he.1)]
    · intro t ht
      rcases List.mem_append.1 ht with ht | ht
      · obtain ⟨hf, hp⟩ := hold t ht
        exact ⟨hf, fun hpush => (hsame n).2 (hp hpush)⟩
      · cases List.mem_singleton.1 ht
        exact ⟨rfl, fun _ => (hsame n).2 hhas⟩
    · change Lists ((s.threads n ++ [PtThread.push rest q.1 q.2 sender]).flatMap _) _
      rw [flatMap_pushes]
      apply (hpend.perm List.perm_middle.symm).tail.congr
      intro b
      rw [Flood.set_eq_waiting Copy.noConfusion]
      exact and_congr_right (fun _ => not_congr (and_iff_right rfl))
    · intro msg hmsg
      rw [ran_inFlight] at hmsg
      rcases List.mem_append.1 hmsg with hmsg | hmsg
      · exact h.bodies msg hmsg
      · cases List.mem_singleton.1 hmsg
        rfl
    · rw [ran_inFlight]
      change Lists ((s.inFlight ++ [_]).filterMap _) _
      rw [List.filterMap_append]
      apply (h.copies.concat (a := (n, peer, Copy.flying)) ?_).congr
      · intro e
        rw [Flood.underWay_set, hwait]
        constructor
        · rintro (⟨he, _⟩ | ⟨_, he⟩)
          · exact .inl he
          · exact .inr he
        · rintro (he | he)
          · refine .inl ⟨he, ?_⟩
            rintro rfl
            exact absurd he.2 (by simp)
          · exact .inr ⟨.inl rfl, he⟩
      · intro he
        have hfl : f n peer = .flying := he.1
        rw [hwait] at hfl
        cases hfl
    · exact h.ok.set hne.1 hne.2 Copy.noConfusion Copy.noConfusion (by simp)
  · rw [Flood.sends_send hwait, ran_sent]
    change gossips (s.sent ++ [_]) + _ = gossips s.sent + _
    rw [gossips, List.countP_append, ← gossips]
    change gossips s.sent + 1 + f.sends = _
    omega
  · have hwork : (f.set n peer .flying).work < f.work := by
      apply Flood.work_set_lt
      rw [hwait]
      decide
    have hload := load_update hthreads
    rw [suspend_threads, threadsLoad_concat] at hload
    change _ + (threadsLoad (s.threads n) + 1) + messagesLoad s.inFlight =
      _ + threadsLoad (s.threads n ++ [PtThread.push rest q.1 q.2 sender]) + _ at hload
    rw [threadsLoad_concat, ran_inFlight] at hload
    change _ = _ + (threadsLoad (s.threads n) + 1) + messagesLoad (s.inFlight ++ [_]) at hload
    rw [messagesLoad_concat] at hload
    change _ = _ + (messagesLoad s.inFlight + 0) at hload
    omega

theorem Flooding.push_last [Fintype ν]
    (h : Flooding H E cap root bs q f (s.suspend n (.push [] q.1 q.2 sender))) (order : List ν) :
    let r : PtResult ν μ β := ⟨(s.node n).lazyPush q.1 sender order, none⟩
    Flooding H E cap root bs q f (s.ran n r) ∧
      Advances f (s.suspend n (.push [] q.1 q.2 sender)) f (s.ran n r) := by
  intro r
  obtain ⟨hhas, hold, hpend⟩ := h.suspended
  have hthreads := ran_suspend s n (.push [] q.1 q.2 sender) r
  obtain ⟨hused, _, hcr⟩ := ran_history s n r
  refine ⟨?_, rfl, ?_⟩
  · apply h.change h.ok (ran_node s n _) hthreads hcr hused
    · apply (h.nodes n).lazyPush
      rw [held_of_has hhas, List.map_append]
      exact List.mem_append_right _ List.mem_cons_self
    · exact fun k _ => ⟨fun a => Iff.rfl, Iff.rfl, fun b => Iff.rfl⟩
    · intro t ht
      exact hold t (by simpa using ht)
    · change Lists ((s.threads n ++ []).flatMap _) _
      rw [List.append_nil]
      rwa [List.append_nil] at hpend
    · exact h.bodies
    · exact h.copies
  · have hload := load_update hthreads
    rw [suspend_threads, threadsLoad_concat] at hload
    change _ + (threadsLoad (s.threads n) + 1) + messagesLoad s.inFlight =
      _ + threadsLoad (s.threads n ++ []) + messagesLoad s.inFlight at hload
    rw [List.append_nil] at hload
    omega

theorem Flooding.push [Fintype ν]
    (h : Flooding H E cap root bs q f (s.suspend n (.push peers q.1 q.2 sender)))
    (hr : (s.node n).pushOn peers q.1 q.2 sender o = some r) :
    ∃ f', Flooding H E cap root bs q f' (s.ran n r) ∧
      Advances f (s.suspend n (.push peers q.1 q.2 sender)) f' (s.ran n r) := by
  rcases Plumtree.pushOn_spec hr with ⟨peer, rest, rfl, rfl⟩ | ⟨order, rfl, _, rfl⟩
  · exact ⟨_, h.push_send⟩
  · exact ⟨f, h.push_last order⟩

end

section
omit [DecidableEq ν] [DecidableEq μ]

theorem Advances.trans [Fintype ν] {f g : Flood ν} {s t : PtSwarm ν μ β} (h : Advances f s g t)
    (h' : Advances g t f' s') : Advances f s f' s' := by
  have hsends := h.sends
  have hsends' := h'.sends
  exact ⟨by omega, h'.effort.trans h.effort⟩

end

theorem perm_eraseIdx {l : List α} (h : l[i]? = some a) : l.Perm (a :: l.eraseIdx i) := by
  obtain ⟨hi, rfl⟩ := List.getElem?_eq_some_iff.1 h
  exact (List.getElem_cons_eraseIdx_perm hi).symm

/-- The swarm when a message has been taken out of the network. -/
def taken (s : PtSwarm ν μ β) (i : ℕ) (announced : List (ν × ν × μ)) : PtSwarm ν μ β :=
  { s with inFlight := s.inFlight.eraseIdx i, announced }

section
omit [DecidableEq ν] [DecidableEq μ]

theorem Flooding.copies_taken (h : Flooding H E cap root bs q f s)
    (hmsg : s.inFlight[i]? = some msg) (hcopy : msg.copy = some e) :
    Lists ((s.inFlight.eraseIdx i).filterMap PtMessage.copy) (fun x => f.UnderWay x ∧ x ≠ e) := by
  have hp := (perm_eraseIdx hmsg).filterMap PtMessage.copy
  rw [List.filterMap_cons, hcopy] at hp
  exact (h.copies.perm hp.symm).tail

theorem Flooding.copies_same (h : Flooding H E cap root bs q f s)
    (hmsg : s.inFlight[i]? = some msg) (hcopy : msg.copy = none) :
    Lists ((s.inFlight.eraseIdx i).filterMap PtMessage.copy) f.UnderWay := by
  have hp := (perm_eraseIdx hmsg).filterMap PtMessage.copy
  rw [List.filterMap_cons, hcopy] at hp
  exact h.copies.perm hp.symm

theorem Flooding.bodies_taken (h : Flooding H E cap root bs q f s) :
    ∀ msg ∈ s.inFlight.eraseIdx i, msg.body.Fits bs (some q) :=
  fun msg hmsg => h.bodies msg (List.mem_of_mem_eraseIdx hmsg)

theorem messagesLoad_taken {l : List (PtMessage ν μ β)} (hmsg : l[i]? = some msg) :
    messagesLoad l = msg.body.load + messagesLoad (l.eraseIdx i) := by
  rw [messagesLoad, ((perm_eraseIdx hmsg).map _).sum_eq, List.map_cons, List.sum_cons]
  rfl

end

section
omit [DecidableEq μ]

theorem load_taken [Fintype ν] {s : PtSwarm ν μ β} (hmsg : s.inFlight[i]? = some msg)
    (announced : List (ν × ν × μ)) (n : ν) (y : Plumtree ν μ β) :
    ((s.taken i announced).ran n ⟨y, none⟩).load + msg.body.load = s.load := by
  have hload := messagesLoad_taken hmsg
  change ∑ n, threadsLoad (s.threads n) + messagesLoad (s.inFlight.eraseIdx i) + _ =
    ∑ n, threadsLoad (s.threads n) + messagesLoad s.inFlight
  omega

end

theorem Flooding.deliver_ihave [Fintype ν] (h : Flooding H E cap root bs q f s)
    (hmsg : s.inFlight[i]? = some ⟨a, b, .ihave ids⟩) (hrecalls : s.Recalls ⟨a, b, .ihave ids⟩)
    (announced : List (ν × ν × μ)) :
    Flooding H E cap root bs q f ((s.taken i announced).ran b ⟨(s.node b).onIhave a ids, none⟩) ∧
      Advances f s f ((s.taken i announced).ran b ⟨(s.node b).onIhave a ids, none⟩) := by
  have hids : ∀ m ∈ ids, m ∈ bs.map Prod.fst := h.bodies _ (List.mem_of_getElem? hmsg)
  have hsame : (s.node b).onIhave a ids = s.node b := by
    apply Plumtree.onIhave_of_received
    intro m hm
    apply hrecalls m hm
    dsimp only
    rw [(h.nodes b).delivered]
    exact mem_held (hids m hm)
  rw [hsame]
  have hload := load_taken hmsg announced b (s.node b)
  refine ⟨?_, rfl, ?_⟩
  · apply h.change h.ok (ran_node (s.taken i announced) b _) (ran_threads (s.taken i announced) b _)
      rfl rfl (h.nodes b)
    · exact fun k _ => ⟨fun a => Iff.rfl, Iff.rfl, fun b => Iff.rfl⟩
    · intro t ht
      change t ∈ s.threads b ++ [] at ht
      rw [List.append_nil] at ht
      exact h.fits b t ht
    · change Lists ((s.threads b ++ []).flatMap _) _
      rw [List.append_nil]
      exact h.pending b
    · exact h.bodies_taken
    · exact h.copies_same hmsg rfl
  · change _ + 1 = _ at hload
    omega

section
omit [DecidableEq μ]

theorem Flooding.deliver_prune [Fintype ν] (h : Flooding H E cap root bs q f s)
    (hmsg : s.inFlight[i]? = some ⟨b, a, .prune⟩) (announced : List (ν × ν × μ)) :
    Flooding H E cap root bs q (f.set a b .refused)
        ((s.taken i announced).ran a ⟨(s.node a).onPrune b, none⟩) ∧
      Advances f s (f.set a b .refused)
        ((s.taken i announced).ran a ⟨(s.node a).onPrune b, none⟩) := by
  have hunder : f.UnderWay (a, b, .surplus) :=
    (h.copies.2 _).1 (List.mem_filterMap.2 ⟨_, List.mem_of_getElem? hmsg, rfl⟩)
  have hf : f a b = .surplus := hunder.1
  have hne : f a b ≠ .idle ∧ f a b ≠ .first := by
    rw [hf]
    exact ⟨Copy.noConfusion, Copy.noConfusion⟩
  have hsame : ∀ k, (f.set a b .refused).Has root k ↔ f.Has root k :=
    fun k => Flood.has_set hne.2 Copy.noConfusion
  have hload := load_taken hmsg announced a ((s.node a).onPrune b)
  refine ⟨?_, ?_, ?_⟩
  · apply h.change ?_ (ran_node (s.taken i announced) a _) (ran_threads (s.taken i announced) a _)
      rfl rfl
    · rw [held_congr (hsame a)]
      apply ((h.nodes a).demote (h.le (h.ok.adj hne.1))).congr
      intro y
      rw [Flood.live_prune hf, and_assoc]
      exact and_congr_right (fun _ => and_congr_right (fun _ => not_congr (and_iff_right rfl)))
    · intro k hk
      refine ⟨fun y => ?_, hsame k, fun y => ?_⟩
      · rw [Flood.live_prune hf]
        exact and_iff_left (fun he => hk he.1)
      · rw [Flood.set_of_ne (fun he => hk he.1)]
    · intro t ht
      change t ∈ s.threads a ++ [] at ht
      rw [List.append_nil] at ht
      obtain ⟨hfit, hp⟩ := h.fits a t ht
      exact ⟨hfit, fun hpush => (hsame a).2 (hp hpush)⟩
    · change Lists ((s.threads a ++ []).flatMap _) _
      rw [List.append_nil]
      apply (h.pending a).congr
      intro y
      rw [Flood.set_eq_waiting Copy.noConfusion]
      apply and_iff_left_of_imp
      rintro hw ⟨_, rfl⟩
      rw [hf] at hw
      cases hw
    · exact h.bodies_taken
    · apply (h.copies_taken hmsg rfl).congr
      intro e
      rw [Flood.underWay_set, hf]
      simp
    · exact h.ok.set hne.1 hne.2 Copy.noConfusion Copy.noConfusion
        (fun _ => h.ok.target (.inl hf))
  · have hsends : (f.set a b .refused).sends = f.sends := by
      apply Flood.sends_set
      rw [hf]
      rfl
    rw [hsends]
    rfl
  · have hwork : (f.set a b .refused).work < f.work := by
      apply Flood.work_set_lt
      rw [hf]
      decide
    omega

/-- A copy comes to a node that has the message: the node makes the link lazy and refuses. -/
theorem Flooding.deliver_again [Fintype ν] (h : Flooding H E cap root bs q f s)
    (hmsg : s.inFlight[i]? = some ⟨a, b, .gossip mid payload⟩) (hb : f.Has root b)
    (announced : List (ν × ν × μ)) :
    let r : PtResult ν μ β := ⟨{ s.node b with
      eager := (s.node b).eager.erase a, lazy := insert a (s.node b).lazy },
      some (a, .prune, .done)⟩
    Flooding H E cap root bs q (f.set a b .surplus) ((s.taken i announced).ran b r) ∧
      Advances f s (f.set a b .surplus) ((s.taken i announced).ran b r) := by
  intro r
  have hunder : f.UnderWay (a, b, .flying) :=
    (h.copies.2 _).1 (List.mem_filterMap.2 ⟨_, List.mem_of_getElem? hmsg, rfl⟩)
  have hf : f a b = .flying := hunder.1
  have hne : f a b ≠ .idle ∧ f a b ≠ .first := by
    rw [hf]
    exact ⟨Copy.noConfusion, Copy.noConfusion⟩
  have hsame : ∀ k, (f.set a b .surplus).Has root k ↔ f.Has root k :=
    fun k => Flood.has_set hne.2 Copy.noConfusion
  have hwaiting : ∀ k y, f.set a b .surplus k y = .waiting ↔ f k y = .waiting := by
    intro k y
    rw [Flood.set_eq_waiting Copy.noConfusion]
    apply and_iff_left_of_imp
    rintro hw ⟨rfl, rfl⟩
    rw [hf] at hw
    cases hw
  have hload := messagesLoad_taken hmsg
  refine ⟨?_, ?_, ?_⟩
  · apply h.change ?_ (ran_node (s.taken i announced) b r) (ran_threads (s.taken i announced) b r)
      rfl rfl
    · rw [held_congr (hsame b)]
      apply ((h.nodes b).demote (h.le (h.ok.adj hne.1).symm)).congr
      intro y
      rw [Flood.live_refuse hf, and_assoc]
      exact and_congr_right (fun _ => and_congr_right (fun _ => not_congr (and_iff_right rfl)))
    · intro k hk
      refine ⟨fun y => ?_, hsame k, hwaiting k⟩
      rw [Flood.live_refuse hf]
      exact and_iff_left (fun he => hk he.1)
    · intro t ht
      rcases List.mem_append.1 ht with ht | ht
      · obtain ⟨hfit, hp⟩ := h.fits b t ht
        exact ⟨hfit, fun hpush => (hsame b).2 (hp hpush)⟩
      · cases List.mem_singleton.1 ht
        exact ⟨trivial, fun hpush => Bool.noConfusion hpush⟩
    · change Lists ((s.threads b ++ [PtThread.done]).flatMap _) _
      rw [flatMap_pushes]
      change Lists (_ ++ []) _
      rw [List.append_nil]
      exact (h.pending b).congr (hwaiting b)
    · intro msg hm
      rw [ran_inFlight] at hm
      rcases List.mem_append.1 hm with hm | hm
      · exact h.bodies_taken msg hm
      · cases List.mem_singleton.1 hm
        exact Option.some_ne_none q
    · rw [ran_inFlight]
      change Lists ((s.inFlight.eraseIdx i ++ [_]).filterMap _) _
      rw [List.filterMap_append]
      apply ((h.copies_taken hmsg rfl).concat (a := (a, b, Copy.surplus)) ?_).congr
      · intro e
        rw [Flood.underWay_set, hf]
        simp
      · rintro ⟨he, _⟩
        have hs : f a b = .surplus := he.1
        rw [hf] at hs
        cases hs
    · exact h.ok.set hne.1 hne.2 Copy.noConfusion Copy.noConfusion (fun _ => hb)
  · have hsends : (f.set a b .surplus).sends = f.sends := by
      apply Flood.sends_set
      rw [hf]
      rfl
    rw [hsends, ran_sent]
    change gossips (s.sent ++ [_]) + _ = gossips s.sent + _
    rw [gossips, List.countP_append]
    rfl
  · have hwork : (f.set a b .surplus).work < f.work := by
      apply Flood.work_set_lt
      rw [hf]
      decide
    have hthreads := load_update (s := s) (ran_threads (s.taken i announced) b r)
    rw [ran_inFlight] at hthreads
    change _ = _ + threadsLoad (s.threads b ++ [PtThread.done]) +
      messagesLoad (s.inFlight.eraseIdx i ++ [_]) at hthreads
    rw [threadsLoad_concat, messagesLoad_concat] at hthreads
    change _ = _ + (threadsLoad (s.threads b) + 1) + (messagesLoad (s.inFlight.eraseIdx i) + 0)
      at hthreads
    omega

theorem ran_update_node (s : PtSwarm ν μ β) (n : ν) (y : Plumtree ν μ β) (r : PtResult ν μ β) :
    ({ s with node := Function.update s.node n y } : PtSwarm ν μ β).ran n r = s.ran n r := by
  unfold ran
  split
  · simp only [Function.update_idem]
  · simp only [Function.update_idem]

end

theorem Flooding.arrive [Fintype ν] (h : Flooding H E cap root bs q f s)
    (hmsg : s.inFlight[i]? = some ⟨a, b, .gossip q.1 q.2⟩) (hb : ¬f.Has root b)
    (announced : List (ν × ν × μ))
    (ho : Plumtree.listing ((s.node b).admitted a q.1 q.2).eager o = some order) :
    let t : PtSwarm ν μ β := { s.taken i announced with
      node := Function.update s.node b ((s.node b).admitted a q.1 q.2) }
    let push : PtThread ν μ β :=
      .push (order.filter (fun peer => some peer ≠ some a)) q.1 q.2 (some a)
    Flooding H E cap root bs q (f.arrive E a b) (t.suspend b push) ∧
      Advances f s (f.arrive E a b) (t.suspend b push) := by
  intro t push
  have hunder : f.UnderWay (a, b, .flying) :=
    (h.copies.2 _).1 (List.mem_filterMap.2 ⟨_, List.mem_of_getElem? hmsg, rfl⟩)
  have hf : f a b = .flying := hunder.1
  obtain ⟨hadj, ha⟩ := h.ok.source_of_flying hf
  have hhas : ∀ {k}, (f.arrive E a b).Has root k ↔ f.Has root k ∨ k = b :=
    Flood.has_arrive h.ok hf hb
  have hload := messagesLoad_taken hmsg
  -- before its first copy no link of the node has been spoken against
  have hlive : ∀ y, f.Live b y := fun y =>
    ⟨(h.ok.unheard hb y).2.1, (h.ok.unheard hb y).2.2.1, by
      rw [(h.ok.unheard hb y).1]
      exact Copy.noConfusion⟩
  have hnode := h.nodes b
  rw [held_of_not hb] at hnode
  have hadmitted := hnode.admitted (a := a) ⟨hadj.symm, hlive a⟩ h.fresh q.2
  have hmem : ∀ y, y ∈ order.filter (fun peer => some peer ≠ some a) ↔ E.Adj b y ∧ y ≠ a := by
    intro y
    rw [List.mem_filter, Plumtree.mem_of_listing ho, hadmitted.eager, decide_eq_true_iff,
      and_iff_left (hlive y)]
    exact and_congr_right (fun _ => not_congr (Option.some.injEq y a ▸ Iff.rfl))
  have hnone : ∀ y, f b y ≠ .waiting := by
    intro y
    rw [(h.ok.unheard hb y).1]
    exact Copy.noConfusion
  have hpend : (s.threads b).flatMap PtThread.pushes = [] :=
    List.eq_nil_iff_forall_not_mem.2 (fun y hy => hnone y (((h.pending b).2 y).1 hy))
  have hnodes : (t.suspend b push).node =
      Function.update s.node b ((s.node b).admitted a q.1 q.2) := rfl
  have hthreads : (t.suspend b push).threads =
      Function.update s.threads b (s.threads b ++ [push]) := rfl
  refine ⟨?_, ?_, ?_⟩
  · apply h.change (h.ok.arrive hf hb) hnodes hthreads rfl rfl
    · rw [held_of_has (hhas.2 (.inr rfl))]
      exact hadmitted.congr (fun y => and_congr_right (fun _ => h.ok.live_arrive hf hb))
    · intro k hk
      refine ⟨fun y => h.ok.live_arrive hf hb, hhas.trans (or_iff_left hk), fun y => ?_⟩
      rw [h.ok.arrive_eq_waiting hf hb]
      exact or_iff_left (fun he => hk he.1)
    · intro u hu
      rcases List.mem_append.1 hu with hu | hu
      · obtain ⟨hfit, hp⟩ := h.fits b u hu
        exact ⟨hfit, fun hpush => hhas.2 (.inl (hp hpush))⟩
      · cases List.mem_singleton.1 hu
        exact ⟨rfl, fun _ => hhas.2 (.inr rfl)⟩
    · rw [flatMap_pushes, hpend]
      refine ⟨?_, fun y => ?_⟩
      · exact (Plumtree.nodup_of_listing ho).filter _
      · change y ∈ order.filter _ ↔ Flood.arrive E f a b b y = .waiting
        rw [hmem, h.ok.arrive_eq_waiting hf hb, or_iff_right (hnone y)]
        exact (and_iff_right rfl).symm
    · exact h.bodies_taken
    · apply (h.copies_taken hmsg rfl).congr
      intro e
      exact h.ok.underWay_arrive hf hb
  · rw [h.ok.sends_arrive hf hb]
    rfl
  · have hwork := h.ok.work_arrive_lt hf hb
    have hsum := load_update hthreads
    rw [threadsLoad_concat] at hsum
    change _ = _ + (threadsLoad (s.threads b) + 1) + messagesLoad (s.inFlight.eraseIdx i) at hsum
    omega

/-- The swarm when a suspended handler has been taken up. -/
def taking (s : PtSwarm ν μ β) (n : ν) (j : ℕ) : PtSwarm ν μ β :=
  { s with threads := Function.update s.threads n ((s.threads n).eraseIdx j) }

section
omit [DecidableEq μ]

theorem ran_taking (s : PtSwarm ν μ β) (n : ν) (j : ℕ) (r : PtResult ν μ β) :
    ((s.taking n j).ran n r).threads = Function.update s.threads n
      ((s.threads n).eraseIdx j ++ (r.out.map (fun q => q.2.2)).toList) := by
  rw [ran_threads]
  unfold taking
  dsimp only
  rw [Function.update_self, Function.update_idem]

end

section
omit [DecidableEq ν] [DecidableEq μ]

theorem threadsLoad_taking {l : List (PtThread ν μ β)} (ht : l[j]? = some t) :
    threadsLoad l = t.load + threadsLoad (l.eraseIdx j) := by
  rw [threadsLoad, ((perm_eraseIdx ht).map _).sum_eq, List.map_cons, List.sum_cons]
  rfl

theorem Flooding.pending_taking (h : Flooding H E cap root bs q f s)
    (ht : (s.threads n)[j]? = some t) (hpush : t.pushes = []) :
    Lists (((s.threads n).eraseIdx j).flatMap PtThread.pushes) (fun b => f n b = .waiting) := by
  have hp := (perm_eraseIdx ht).flatMap_right PtThread.pushes
  rw [List.flatMap_cons, hpush, List.nil_append] at hp
  exact (h.pending n).perm hp.symm

end

section
omit [DecidableEq μ]

theorem Flooding.announce [Fintype ν] (h : Flooding H E cap root bs q f s)
    (ht : (s.threads n)[j]? = some t) (hpush : t.pushes = [])
    (hr : r = ⟨s.node n, none⟩ ∨ ∃ peer ids rest,
      r = ⟨s.node n, some (peer, .ihave ids, .flush rest)⟩ ∧ (∀ m ∈ ids, m ∈ bs.map Prod.fst) ∧
      PtThread.Fits bs (some q) (.flush rest : PtThread ν μ β) ∧ 2 * rest.length + 2 < t.load) :
    Flooding H E cap root bs q f ((s.taking n j).ran n r) ∧
      Advances f s f ((s.taking n j).ran n r) := by
  have hthreads := ran_taking s n j r
  have hload := load_update hthreads
  rw [threadsLoad_taking ht] at hload
  have hsame : ∀ k, k ≠ n → (∀ a, f.Live k a ↔ f.Live k a) ∧ (f.Has root k ↔ f.Has root k) ∧
      ∀ b, f k b = .waiting ↔ f k b = .waiting :=
    fun k _ => ⟨fun a => Iff.rfl, Iff.rfl, fun b => Iff.rfl⟩
  have hold : ∀ u ∈ (s.threads n).eraseIdx j, u.Fits bs (some q) ∧ (u.isPush → f.Has root n) :=
    fun u hu => h.fits n u (List.mem_of_mem_eraseIdx hu)
  have hpos : 0 < t.load := by
    cases t with
    | push => exact Nat.zero_lt_one
    | flush => exact Nat.succ_pos _
    | repair => exact Nat.zero_lt_one
    | done => exact Nat.zero_lt_one
  obtain ⟨hused, _, hcr⟩ := ran_history (s.taking n j) n r
  have hnode := ran_node (s.taking n j) n r
  rcases hr with rfl | ⟨peer, ids, rest, rfl, hids, hrest, hlt⟩
  · refine ⟨?_, rfl, ?_⟩
    · apply h.change h.ok hnode hthreads hcr hused (h.nodes n) hsame
      · intro u hu
        exact hold u (by simpa using hu)
      · change Lists (((s.threads n).eraseIdx j ++ []).flatMap _) _
        rw [List.append_nil]
        exact h.pending_taking ht hpush
      · exact h.bodies
      · exact h.copies
    · change _ = _ + threadsLoad ((s.threads n).eraseIdx j ++ []) + messagesLoad s.inFlight at hload
      rw [List.append_nil] at hload
      omega
  · refine ⟨?_, ?_, ?_⟩
    · apply h.change h.ok hnode hthreads hcr hused (h.nodes n) hsame
      · intro u hu
        rcases List.mem_append.1 hu with hu | hu
        · exact hold u hu
        · cases List.mem_singleton.1 hu
          exact ⟨hrest, fun hp => Bool.noConfusion hp⟩
      · change Lists (((s.threads n).eraseIdx j ++ [PtThread.flush rest]).flatMap _) _
        rw [flatMap_pushes]
        change Lists (_ ++ []) _
        rw [List.append_nil]
        exact h.pending_taking ht hpush
      · intro msg hm
        rw [ran_inFlight] at hm
        rcases List.mem_append.1 hm with hm | hm
        · exact h.bodies msg hm
        · cases List.mem_singleton.1 hm
          exact hids
      · rw [ran_inFlight]
        change Lists ((s.inFlight ++ [_]).filterMap _) _
        rw [List.filterMap_append]
        change Lists (_ ++ []) _
        rw [List.append_nil]
        exact h.copies
    · rw [ran_sent]
      change gossips (s.sent ++ [_]) + _ = gossips s.sent + _
      rw [gossips, List.countP_append]
      rfl
    · rw [ran_inFlight] at hload
      change _ = _ + threadsLoad ((s.threads n).eraseIdx j ++ [PtThread.flush rest]) +
        messagesLoad (s.inFlight ++ [_]) at hload
      rw [threadsLoad_concat, messagesLoad_concat] at hload
      change _ = _ + (threadsLoad ((s.threads n).eraseIdx j) + (2 * rest.length + 1)) +
        (messagesLoad s.inFlight + 1) at hload
      omega

/-- A push that goes on counts as suspended until it has sent. -/
theorem Flooding.suspend_taking [Fintype ν] (h : Flooding H E cap root bs q f s)
    (ht : (s.threads n)[j]? = some t) :
    Flooding H E cap root bs q f ((s.taking n j).suspend n t) ∧
      ((s.taking n j).suspend n t).load = s.load := by
  have hthreads : ((s.taking n j).suspend n t).threads =
      Function.update s.threads n ((s.threads n).eraseIdx j ++ [t]) := by
    unfold suspend taking
    dsimp only
    rw [Function.update_self, Function.update_idem]
  have hperm : ((s.threads n).eraseIdx j ++ [t]).Perm (s.threads n) :=
    (List.perm_append_singleton t _).trans (perm_eraseIdx ht).symm
  have hnodes : ((s.taking n j).suspend n t).node = Function.update s.node n (s.node n) :=
    (Function.update_eq_self n s.node).symm
  constructor
  · apply h.change h.ok hnodes hthreads rfl rfl (h.nodes n)
      (fun k _ => ⟨fun a => Iff.rfl, Iff.rfl, fun b => Iff.rfl⟩)
    · exact fun u hu => h.fits n u (hperm.mem_iff.1 hu)
    · exact (h.pending n).perm (hperm.flatMap_right _)
    · exact h.bodies
    · exact h.copies
  · have hload := load_update hthreads
    rw [threadsLoad_concat, threadsLoad_taking ht] at hload
    change _ = _ + _ + messagesLoad s.inFlight at hload
    omega

end

theorem Flooding.resume [Fintype ν] (h : Flooding H E cap root bs q f s)
    (ht : (s.threads n)[j]? = some t) (hr : (s.node n).resume o t = some r) :
    ∃ f', Flooding H E cap root bs q f' ((s.taking n j).ran n r) ∧
      Advances f s f' ((s.taking n j).ran n r) := by
  have hfit := (h.fits n t (List.mem_of_getElem? ht)).1
  cases t with
  | push peers mid payload sender =>
    have hq : q = (mid, payload) := Option.some.inj hfit
    subst hq
    obtain ⟨hsus, hload⟩ := h.suspend_taking ht
    obtain ⟨f', hf', hadv⟩ := hsus.push hr
    refine ⟨f', hf', hadv.sends, ?_⟩
    rw [← hload]
    exact hadv.effort
  | flush byPeer =>
    refine ⟨f, h.announce ht rfl ?_⟩
    cases byPeer with
    | nil =>
      rw [Plumtree.resume, (h.nodes n).flushOn_nil] at hr
      cases hr
      exact .inl rfl
    | cons p rest =>
      cases hr
      refine .inr ⟨p.1, p.2, rest, rfl, hfit p List.mem_cons_self,
        fun e he => hfit e (List.mem_cons_of_mem _ he), ?_⟩
      change _ < 2 * (rest.length + 1) + 1
      omega
  | repair mids => cases hfit
  | done =>
    cases hr
    exact ⟨f, h.announce ht rfl (.inl rfl)⟩

theorem Flooding.deliver [Fintype ν] (h : Flooding H E cap root bs q f s)
    (hmsg : s.inFlight[i]? = some msg) (hrecalls : s.Recalls msg)
    (hr : (s.node msg.dst).handle msg.src o msg.body = some r)
    (announced : List (ν × ν × μ)) :
    ∃ f', Flooding H E cap root bs q f' ((s.taken i announced).ran msg.dst r) ∧
      Advances f s f' ((s.taken i announced).ran msg.dst r) := by
  obtain ⟨a, b, body⟩ := msg
  have hfit := h.bodies _ (List.mem_of_getElem? hmsg)
  dsimp only at hfit hr ⊢
  cases body with
  | gossip mid payload =>
    have hq : q = (mid, payload) := Option.some.inj hfit
    subst hq
    rcases Plumtree.onGossip_spec hr with ⟨hnone, order, ho, hpush⟩ | ⟨hsome, rfl⟩
    · have hb : ¬f.Has root b := by
        intro hb
        have hnode := h.nodes b
        rw [held_of_has hb] at hnode
        -- a node that can cache the payload remembers it until the next broadcast
        have hcap : (s.node b).cacheCap = 0 := by
          by_contra hne
          exact hnode.get_ne_none (fun hc => hne (hnode.cacheCap.trans hc)) hnone
        apply hrecalls hcap
        dsimp only
        rw [hnode.delivered, List.map_append]
        exact List.mem_append_right _ List.mem_cons_self
      obtain ⟨harrive, hadv⟩ := h.arrive hmsg hb announced ho
      rw [← ran_update_node (s.taken i announced) b ((s.node b).admitted a mid payload)]
      obtain ⟨f', hf', hadv'⟩ := harrive.push (o := o) (r := r) (by
        dsimp only
        rw [Function.update_self]
        exact hpush)
      exact ⟨f', hf', hadv.trans hadv'⟩
    · have hb : f.Has root b := by
        by_contra hb
        have hnode := h.nodes b
        rw [held_of_not hb] at hnode
        exact hsome (hnode.get_eq_none h.fresh)
      exact ⟨_, h.deliver_again hmsg hb announced⟩
  | ihave ids =>
    cases hr
    exact ⟨f, h.deliver_ihave hmsg hrecalls announced⟩
  | prune =>
    cases hr
    exact ⟨_, h.deliver_prune hmsg announced⟩
  | graft mid => cases hfit

end Flooding

end PtSwarm

end Suprime
