import Suprime.PlumtreeRuns

namespace Suprime
set_option autoImplicit true

namespace PtBody

variable {μ β : Type} [DecidableEq μ]

def Carries (m : μ) : PtBody μ β → Prop
  | .gossip mid _ => mid = m
  | _ => False

def Grafts (m : μ) : PtBody μ β → Prop
  | .graft mid => mid = m
  | _ => False

instance (m : μ) : (body : PtBody μ β) → Decidable (body.Carries m)
  | .gossip mid _ => inferInstanceAs (Decidable (mid = m))
  | .ihave _ => inferInstanceAs (Decidable False)
  | .prune => inferInstanceAs (Decidable False)
  | .graft _ => inferInstanceAs (Decidable False)

instance (m : μ) : (body : PtBody μ β) → Decidable (body.Grafts m)
  | .gossip _ _ => inferInstanceAs (Decidable False)
  | .ihave _ => inferInstanceAs (Decidable False)
  | .prune => inferInstanceAs (Decidable False)
  | .graft mid => inferInstanceAs (Decidable (mid = m))

end PtBody

namespace PtSwarm

variable {ν μ β : Type} [DecidableEq ν] [DecidableEq μ]

/-- The message is a graft of the id from `a` to `b`, or the id on its way from `b` to `a`. -/
def Mends (a b : ν) (m : μ) (msg : PtMessage ν μ β) : Prop :=
  msg.src = a ∧ msg.dst = b ∧ msg.body.Grafts m ∨ msg.src = b ∧ msg.dst = a ∧ msg.body.Carries m

instance (a b : ν) (m : μ) (msg : PtMessage ν μ β) : Decidable (Mends a b m msg) :=
  inferInstanceAs (Decidable (_ ∨ _))

/-- Node `a` has the id, has `b` on its list of announcers of the missing id, or one of the two is
already answering the other. -/
def Chance (a b : ν) (m : μ) (s : PtSwarm ν μ β) : Prop :=
  (s.node a).received.get m ≠ none ∨ (s.node a).HeardFrom m b ∨ ∃ msg ∈ s.inFlight, Mends a b m msg

/-- After `b` announced the id to `a`, the step does not make `a` forget the id, no graft of the id
from `a` reaches `b` while `b` does not have it, and no loss takes the last graft or answer that
is under way when `b` is no longer on the list of `a`. -/
def Spares (a b : ν) (m : μ) (s : PtSwarm ν μ β) (act : PtAction ν μ β) : Prop :=
  (b, a, m) ∈ s.announced →
    match act with
    | .broadcast n mid payload _ => n = a → (s.node a).evicted mid payload ≠ some m
    | .deliver i _ => ∀ msg ∈ s.inFlight[i]?,
      (msg.dst = a → ∀ q ∈ (s.node a).recorded (.message msg.src msg.body),
        (s.node a).evicted q.1 q.2 ≠ some m) ∧
      (msg.src = a → msg.dst = b → msg.body.Grafts m → (s.node b).received.get m ≠ none)
    | .lose i => Chance a b m { s with inFlight := s.inFlight.eraseIdx i }
    | _ => True

instance (a b : ν) (m : μ) (s : PtSwarm ν μ β) : Decidable (Chance a b m s) :=
  inferInstanceAs (Decidable (_ ∨ _ ∧ _ ∨ _))

instance (a b : ν) (m : μ) (s : PtSwarm ν μ β) : (act : PtAction ν μ β) →
    Decidable (Spares a b m s act)
  | .broadcast _ _ _ _ => inferInstanceAs (Decidable (_ → _ → _))
  | .deliver i _ => inferInstanceAs (Decidable (_ → ∀ msg ∈ s.inFlight[i]?, _ ∧ _))
  | .resume _ _ _ => inferInstanceAs (Decidable (_ → True))
  | .tick _ => inferInstanceAs (Decidable (_ → True))
  | .lose i =>
    inferInstanceAs (Decidable (_ → Chance a b m { s with inFlight := s.inFlight.eraseIdx i }))
  | .crash _ => inferInstanceAs (Decidable (_ → True))
  | .setNeighbors _ _ => inferInstanceAs (Decidable (_ → True))

/-- The chance that an announcement gives is not lost. -/
def Tracked (a b : ν) (m : μ) (s : PtSwarm ν μ β) : Prop :=
  (b, a, m) ∈ s.announced → Chance a b m s

theorem chance_of_ihave {x : Plumtree ν μ β} (h : x.part o (.message b (.ihave ids)) = some r)
    (hm : m ∈ ids) : r.node.received.get m ≠ none ∨ r.node.HeardFrom m b := by
  cases h
  obtain ⟨hmiss, hann⟩ := Plumtree.onIhave_spec x b ids m
  dsimp only
  rw [(Plumtree.onIhave_fields x b ids).1]
  by_cases hnone : x.received.get m = none
  · exact .inr ⟨hmiss.2 (.inr ⟨hm, hnone⟩), (hann b).2 (.inr ⟨rfl, hm, hnone⟩)⟩
  · exact .inl hnone

section
omit [DecidableEq μ]

theorem Moves.announced {s : PtSwarm ν μ β} (h : Moves s act n o i t)
    (ha : (b, a, m) ∈ t.announced) : (b, a, m) ∈ s.announced ∨
      ∃ ids, i = .message b (.ihave ids) ∧ n = a ∧ m ∈ ids := by
  cases h with
  | broadcast => exact .inl ha
  | @deliver _ msg =>
    rcases List.mem_append.1 ha with ha | ha
    · exact .inl ha
    · right
      obtain ⟨src, dst, body⟩ := msg
      cases body with
      | ihave ids =>
        obtain ⟨mid, hmid, he⟩ := List.mem_map.1 ha
        cases he
        exact ⟨ids, rfl, rfl, hmid⟩
      | gossip mid payload => cases ha
      | prune => cases ha
      | graft mid => cases ha
  | resume => exact .inl ha
  | tick => exact .inl ha

end

theorem Spares.part {s : PtSwarm ν μ β} (hC : Spares a b m s act) (h : Moves s act n o i t)
    (ha : (b, a, m) ∈ s.announced) :
    (n = a → ∀ q ∈ (s.node a).recorded i, (s.node a).evicted q.1 q.2 ≠ some m) ∧
      (n = b → i = .message a (.graft m) → (s.node b).received.get m ≠ none) := by
  have hC' := hC ha
  cases h with
  | broadcast =>
    constructor
    · intro hn q hq
      cases hq
      exact hC' hn
    · intro _ hi
      cases hi
  | @deliver _ msg _ hmsg =>
    obtain ⟨h₁, h₂⟩ := hC' msg hmsg
    refine ⟨h₁, fun hb hi => ?_⟩
    obtain ⟨src, dst, body⟩ := msg
    cases hi
    exact h₂ rfl hb rfl
  | resume =>
    constructor
    · intro _ q hq
      cases hq
    · intro _ hi
      cases hi
  | tick =>
    constructor
    · intro _ q hq
      cases hq
    · intro _ hi
      cases hi

section
omit [DecidableEq μ]

theorem Moves.inFlight {s : PtSwarm ν μ β} (h : Moves s act n o i t) (hmsg : msg ∈ s.inFlight) :
    msg ∈ t.inFlight ∨ n = msg.dst ∧ i = .message msg.src msg.body := by
  cases h with
  | broadcast => exact .inl hmsg
  | @deliver j msg' _ hget =>
    obtain ⟨k, hk⟩ := List.mem_iff_getElem?.1 hmsg
    by_cases hkj : k = j
    · subst hkj
      rw [hget] at hk
      cases hk
      exact .inr ⟨rfl, rfl⟩
    · exact .inl (List.mem_eraseIdx_iff_getElem?.2 ⟨k, hkj, hk⟩)
  | resume => exact .inl hmsg
  | tick => exact .inl hmsg

end

theorem answer_of_graft {x : Plumtree ν μ β} (h : x.part o (.message a (.graft m)) = some r)
    (hm : x.received.get m ≠ none) : ∃ payload, r.out = some (a, .gossip m payload, .done) := by
  cases h
  obtain ⟨payload, hp⟩ := Option.ne_none_iff_exists'.1 hm
  have hp' : ({ x with eager := insert a x.eager, lazy := x.lazy.erase a }).received.get m =
      some payload := hp
  refine ⟨payload, ?_⟩
  dsimp only [Plumtree.onGraft]
  rw [hp]
  rfl

theorem Chance.ran {s : PtSwarm ν μ β} (hc : Chance a b m s) (h : Moves s act n o i t)
    (hr : (s.node n).part o i = some r)
    (hkeep : n = a → ∀ q ∈ (s.node a).recorded i, (s.node a).evicted q.1 q.2 ≠ some m)
    (hgraft : n = b → i = .message a (.graft m) → (s.node b).received.get m ≠ none) :
    Chance a b m (t.ran n r) := by
  have hnode : (t.ran n r).node = Function.update s.node n r.node := by
    rw [ran_node, h.sub.2.2]
  have hother : n ≠ a → (t.ran n r).node a = s.node a := by
    intro hn
    rw [hnode, Function.update_of_ne (Ne.symm hn)]
  have hhas : n = a → ((s.node a).received.get m ≠ none ∨
      ∃ src payload, i = .message src (.gossip m payload)) →
      ((t.ran n r).node a).received.get m ≠ none := by
    intro hn hm
    subst hn
    rw [hnode, Function.update_self]
    exact Plumtree.received_of_part hr hm (hkeep rfl)
  rcases hc with hrec | hheard | ⟨msg, hmsg, hmends⟩
  · by_cases hn : n = a
    · exact .inl (hhas hn (.inl hrec))
    · exact .inl (hother hn ▸ hrec)
  · by_cases hn : n = a
    · by_cases hrec : (s.node a).received.get m = none
      · subst hn
        rcases (Plumtree.partEffect hr m).heard b hheard hrec with hheard | ⟨u, hout⟩ | hgossip
        · refine .inr (.inl ?_)
          rw [hnode, Function.update_self]
          exact hheard
        · exact .inr (.inr ⟨_, mem_inFlight_ran.2 (.inr ⟨_, hout, rfl⟩), .inl ⟨rfl, rfl, rfl⟩⟩)
        · exact .inl (hhas rfl (.inr hgossip))
      · exact .inl (hhas hn (.inl hrec))
    · exact .inr (.inl (hother hn ▸ hheard))
  · rcases h.inFlight hmsg with hmsg' | ⟨hdst, hi⟩
    · exact .inr (.inr ⟨msg, mem_inFlight_ran.2 (.inl hmsg'), hmends⟩)
    · obtain ⟨src, dst, body⟩ := msg
      rcases hmends with ⟨rfl, rfl, hbody⟩ | ⟨rfl, rfl, hbody⟩
      · cases body with
        | graft mid =>
          cases hbody
          cases hi
          subst hdst
          obtain ⟨payload, hout⟩ := answer_of_graft hr (hgraft rfl rfl)
          exact .inr (.inr ⟨_, mem_inFlight_ran.2 (.inr ⟨_, hout, rfl⟩), .inr ⟨rfl, rfl, rfl⟩⟩)
        | gossip mid payload => cases hbody
        | ihave ids => cases hbody
        | prune => cases hbody
      · cases body with
        | gossip mid payload =>
          cases hbody
          exact .inl (hhas hdst (.inr ⟨_, _, hi⟩))
        | graft mid => cases hbody
        | ihave ids => cases hbody
        | prune => cases hbody

theorem Tracked.step {s : PtSwarm ν μ β} (ht : Tracked a b m s) (hC : Spares a b m s act)
    (h : s.step act = some s') : Tracked a b m s' := by
  rcases step_cases h with ⟨n, o, i, t, r, hmove, hr, rfl⟩ | ⟨j, rfl, rfl⟩ | ⟨n, _, rfl⟩ |
    ⟨n, l, _, rfl⟩
  · intro ha
    rw [(ran_history t n r).2.1] at ha
    rcases hmove.announced ha with ha | ⟨ids, rfl, rfl, hm⟩
    · obtain ⟨hkeep, hgraft⟩ := hC.part hmove ha
      exact (ht ha).ran hmove hr hkeep hgraft
    · unfold Chance
      rw [ran_node, Function.update_self]
      exact (chance_of_ihave hr hm).imp_right .inl
  · exact hC
  · exact ht
  · intro ha
    have hc := ht ha
    unfold Chance at hc ⊢
    by_cases hn : a = n
    · subst hn
      dsimp only
      rw [Function.update_self]
      exact hc
    · dsimp only
      rw [Function.update_of_ne hn]
      exact hc

end PtSwarm

end Suprime
