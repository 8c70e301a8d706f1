import Suprime.TaskOnce

namespace Suprime
set_option autoImplicit true

namespace Naming

variable {α : Type} {N : Naming}

theorem Kept.holdsClaim [PyNone α] {c c' : TaskCluster α} (h : N.Kept c.swarm)
    (h' : N.Kept c'.swarm) (hs : c.step a = some c') (hc : c.swarm.HoldsClaim n tid m ts) :
    c'.swarm.HoldsClaim n tid m ts := by
  obtain ⟨e, he, hv⟩ := hc
  refine ⟨e, ?_, hv⟩
  have hw := h.traced.prov.held n _ e he
  rcases TaskCluster.stores_step hs with hst | ⟨b, hst⟩
  · rw [hst]
    exact he
  · exact h'.log.get_step hst h'.traced he (StoreSwarm.written_mono hst _ hw)

/-- The ids of a list, each claimed only by nodes for which no other id with a slash begins the
rest of the claim's key. -/
def ofIds (S : List Str) : Naming where
  ids tid := tid ∈ S
  claims tid n := tid ∈ S ∧ ∀ t ∈ S, t ++ ['/'] <+: tid ++ '/' :: n → t = tid
  ids_of_claims h := h.1
  apart h ht hpre := by
    rw [claimKey_eq, List.append_assoc, List.prefix_append_right_inj] at hpre
    exact h.2 _ ht hpre

end Naming

def ClusterAction.submits : ClusterAction α → Option Str
  | .act (.submit _ tid ..) => some tid
  | .resubmit _ tid .. => some tid
  | _ => none

namespace TaskCluster

variable {α : Type} [PyNone α]

theorem submitted_act {s s' : TaskSwarm α} (hs : s.step a = some s') :
    s'.submitted = s.submitted ++ (ClusterAction.act a).submits.toList := by
  cases TaskSwarm.stepped_of_step hs with
  | submit => rfl
  | advance n i clock load storeClock _ hadv =>
    rcases TaskSwarm.advance_cases hadv with ⟨_, rfl⟩ | ⟨_, _, rfl⟩ |
      ⟨_, _, st, _, b, runs, _, _, _, rfl⟩
    · exact (List.append_nil _).symm
    · exact (List.append_nil _).symm
    · exact (List.append_nil _).symm
  | registerHandler => exact (List.append_nil _).symm
  | setLoadModel => exact (List.append_nil _).symm
  | put => exact (List.append_nil _).symm
  | evaluate => exact (List.append_nil _).symm
  | finish => exact (List.append_nil _).symm
  | digest => exact (List.append_nil _).symm
  | mergeEntry => exact (List.append_nil _).symm
  | applyDigest => exact (List.append_nil _).symm

theorem submitted_step {c c' : TaskCluster α} (hstep : c.step a = some c') :
    c'.swarm.submitted = c.swarm.submitted ++ a.submits.toList := by
  rcases step_cases hstep with ⟨b, s, rfl, _, hs, rfl⟩ |
    ⟨n, tid, kind, args, clock, st, rfl, _, _, rfl⟩ | ⟨n, rfl, rfl⟩
  · exact submitted_act hs
  · rfl
  · exact (List.append_nil _).symm

theorem submitted_of_run {c : TaskCluster α} (h : Run TaskCluster.step (init grace) past c) :
    ∀ p ∈ past, ∀ tid, p.2.submits = some tid → tid ∈ c.swarm.submitted := by
  induction h with
  | start => exact fun p hp => by cases hp
  | next _ hs ih =>
    intro p hp tid htid
    rw [submitted_step hs]
    cases List.mem_cons.1 hp with
    | inl hp =>
      rw [hp] at htid
      rw [htid]
      exact List.mem_append_right _ (List.mem_singleton_self tid)
    | inr hp => exact List.mem_append_left _ (ih p hp tid htid)

/-- Node `n` does not claim a task in this step under a key that begins with another of the ids and
a slash. -/
def Apart (S : List Str) (c : TaskCluster α) : ClusterAction α → Prop
  | .act (.advance n i ..) => ∀ task ∈ Naming.claimsNow c.swarm n i,
    ∀ t ∈ S, t ++ ['/'] <+: task.id ++ '/' :: n → t = task.id
  | _ => True

/-- The store of node `n` has held a claim of node `m` on a task at some time of the run. -/
def Reached (past : List (TaskCluster α × ClusterAction α)) (c : TaskCluster α) (n tid m : Str)
    (ts : ℚ) : Prop :=
  ∃ u, Visited past c u ∧ u.swarm.HoldsClaim n tid m ts

section
omit [PyNone α]

theorem allows_of_apart {S : List Str} {c : TaskCluster α} (hc : (Naming.ofIds S).Kept c.swarm)
    (hs : ∀ tid, a.submits = some tid → tid ∈ S) (ha : Apart S c a) :
    (Naming.ofIds S).Allows c.swarm a := by
  cases a with
  | act b =>
    cases b with
    | submit n tid kind args clock => exact hs tid rfl
    | advance n i clock load storeClock =>
      intro task htask
      obtain ⟨rest, hi, -⟩ := Naming.claimsNow_eq_some_iff.1 htask
      have hid := hc.ids n _ (List.mem_of_getElem? hi) task (.inl List.mem_cons_self)
      exact ⟨hid, ha task htask⟩
    | _ => trivial
  | resubmit n tid kind args clock => exact hs tid rfl
  | crash n => trivial

end

theorem kept_of_apart {S : List Str} {c : TaskCluster α}
    (h : Run TaskCluster.step (init grace) past c)
    (hs : ∀ p ∈ past, ∀ tid, p.2.submits = some tid → tid ∈ S)
    (ha : ∀ p ∈ past, Apart S p.1 p.2) : (Naming.ofIds S).Kept c.swarm :=
  h.invariant (I := fun c => (Naming.ofIds S).Kept c.swarm)
    (C := fun c a => (∀ tid, a.submits = some tid → tid ∈ S) ∧ Apart S c a)
    (fun p hp => ⟨hs p hp, ha p hp⟩) (.init _ grace)
    (fun _ _ _ hc hca hstep => hc.step (allows_of_apart hc hca.1 hca.2) hstep)

theorem holdsClaim_of_reached {S : List Str} {c : TaskCluster α}
    (h : Run TaskCluster.step (init grace) past c)
    (hs : ∀ p ∈ past, ∀ tid, p.2.submits = some tid → tid ∈ S)
    (ha : ∀ p ∈ past, Apart S p.1 p.2) (hr : Reached past c n tid m ts) :
    c.swarm.HoldsClaim n tid m ts := by
  obtain ⟨u, hu, hclaim⟩ := hr
  induction h with
  | start =>
    rcases hu with rfl | ⟨a, ha⟩
    · exact hclaim
    · cases ha
  | @next past s a s' hrun hstep ih =>
    have hs₀ := fun p hp => hs p (List.mem_cons_of_mem _ hp)
    have ha₀ := fun p hp => ha p (List.mem_cons_of_mem _ hp)
    rcases hu with rfl | ⟨b, hb⟩
    · exact hclaim
    · have hbefore : s.swarm.HoldsClaim n tid m ts := by
        apply ih hs₀ ha₀
        cases List.mem_cons.1 hb with
        | inl hb => exact .inl (Prod.mk.inj hb).1
        | inr hb => exact .inr ⟨b, hb⟩
      exact (kept_of_apart hrun hs₀ ha₀).holdsClaim
        (kept_of_apart (hrun.next hstep) hs ha) hstep hbefore

/-- While no node claims a task under a key that begins with another id and a slash, the winner of
a task on any node has the least of exactly the claims on it that have reached the node. -/
theorem winner_least_of_apart {c : TaskCluster α} {past : List (TaskCluster α × ClusterAction α)}
    {grace : ℕ} (h : Run TaskCluster.step (init grace) past c)
    (ha : ∀ p ∈ past, Apart c.swarm.submitted p.1 p.2) (n tid : Str)
    (ht : tid ∈ c.swarm.submitted) :
    ∃ d, TaskBoard.claims (c.swarm.stores.store n) tid = some d ∧
      ∀ m, TaskBoard.winner d = some m ↔ ∃ ts, Reached past c n tid m ts ∧
        ∀ m' ts', Reached past c n tid m' ts' → toLex (ts, m) ≤ toLex (ts', m') := by
  have hs := submitted_of_run h
  obtain ⟨d, hd, hspec⟩ := (kept_of_apart h hs ha).claims_spec ht n
  have hreached : ∀ m ts, d.get m = some ts ↔ Reached past c n tid m ts := by
    intro m ts
    rw [hspec]
    exact ⟨fun hm => ⟨c, .inl rfl, hm⟩, fun hm => holdsClaim_of_reached h hs ha hm⟩
  refine ⟨d, hd, fun m => ?_⟩
  simp only [TaskBoard.winner_spec, hreached]

instance (S : List Str) (c : TaskCluster α) : (a : ClusterAction α) → Decidable (Apart S c a)
  | .act (.advance n i ..) => inferInstanceAs (Decidable (∀ task ∈ Naming.claimsNow c.swarm n i,
    ∀ t ∈ S, t ++ ['/'] <+: task.id ++ '/' :: n → t = task.id))
  | .act (.submit ..) => isTrue trivial
  | .act (.registerHandler ..) => isTrue trivial
  | .act (.setLoadModel ..) => isTrue trivial
  | .act (.put ..) => isTrue trivial
  | .act (.evaluate ..) => isTrue trivial
  | .act (.finish ..) => isTrue trivial
  | .act (.digest ..) => isTrue trivial
  | .act (.mergeEntry ..) => isTrue trivial
  | .act (.applyDigest ..) => isTrue trivial
  | .resubmit .. => isTrue trivial
  | .crash .. => isTrue trivial

/-- Two nodes claim the tasks `a/b` and `c`. -/
def slashedIds : List (ClusterAction (Option ℕ)) :=
  [.act (.registerHandler ['x'] ['k']), .act (.registerHandler ['y'] ['k']),
    .act (.submit ['x'] ['a', '/', 'b'] ['k'] none 1), .act (.submit ['x'] ['c'] ['k'] none 2),
    .act (.digest ['x']), .act (.applyDigest ['y'] 0), .act (.evaluate ['y']),
    .act (.advance ['y'] 0 3 0 3), .act (.advance ['y'] 0 4 0 4), .act (.digest ['y']),
    .act (.evaluate ['x']), .act (.advance ['x'] 0 5 0 5), .act (.applyDigest ['x'] 1)]

theorem winner_least_of_slashedIds : ∃ past c,
    Run TaskCluster.step (TaskCluster.init 2 : TaskCluster (Option ℕ)) past c ∧
    ∃ d, TaskBoard.claims (c.swarm.stores.store ['x']) ['a', '/', 'b'] = some d ∧
      ∀ m, TaskBoard.winner d = some m ↔ ∃ ts, Reached past c ['x'] ['a', '/', 'b'] m ts ∧
        ∀ m' ts', Reached past c ['x'] ['a', '/', 'b'] m' ts' →
          toLex (ts, m) ≤ toLex (ts', m') := by
  obtain ⟨past, c, hr, hs⟩ := exists_run_of_execPast TaskCluster.step
    (TaskCluster.init 2 : TaskCluster (Option ℕ)) slashedIds
    (fun past c => (decide (∀ p ∈ past, Apart c.swarm.submitted p.1 p.2), c.swarm.submitted))
    (true, [['a', '/', 'b'], ['c']]) (by decide)
  simp only [Prod.mk.injEq, decide_eq_true_eq] at hs
  obtain ⟨hapart, hids⟩ := hs
  exact ⟨past, c, hr, winner_least_of_apart hr hapart ['x'] ['a', '/', 'b']
    (hids ▸ List.mem_cons_self)⟩

/-- A node claims `a/b` and has no handler for `a`. -/
def prefixedId : List (ClusterAction (Option ℕ)) :=
  [.act (.registerHandler ['x'] ['k']), .act (.submit ['x'] ['a'] ['j'] none 1),
    .act (.submit ['x'] ['a', '/', 'b'] ['k'] none 2), .act (.evaluate ['x']),
    .act (.advance ['x'] 0 3 0 3), .act (.advance ['x'] 0 4 0 4)]

/-- The claim of `a/b` makes the node the winner of `a`, which nobody has claimed. -/
theorem prefixed_claim_wins : ¬ ∀ grace past (c : TaskCluster (Option ℕ)),
    Run TaskCluster.step (init grace) past c → ∀ n, ∀ tid ∈ c.swarm.submitted,
      ∃ d, TaskBoard.claims (c.swarm.stores.store n) tid = some d ∧
        ∀ m, TaskBoard.winner d = some m ↔ ∃ ts, Reached past c n tid m ts ∧
          ∀ m' ts', Reached past c n tid m' ts' → toLex (ts, m) ≤ toLex (ts', m') := by
  intro hclaim
  obtain ⟨past, c, hr, hs⟩ := exists_run_of_execPast TaskCluster.step
    (TaskCluster.init 2 : TaskCluster (Option ℕ)) prefixedId
    (fun past c => (decide (∀ p ∈ past,
        (p.1.swarm.stores.store ['x']).data.get (claimKey ['a'] ['x']) = none),
      decide ((c.swarm.stores.store ['x']).data.get (claimKey ['a'] ['x']) = none),
      (TaskBoard.claims (c.swarm.stores.store ['x']) ['a']).bind TaskBoard.winner,
      c.swarm.submitted))
    (true, true, some ['x'], [['a'], ['a', '/', 'b']]) (by decide)
  simp only [Prod.mk.injEq, decide_eq_true_eq] at hs
  obtain ⟨hbefore, hnow, hwin, hids⟩ := hs
  obtain ⟨d, hd, hleast⟩ := hclaim 2 past c hr ['x'] ['a'] (hids ▸ List.mem_cons_self)
  rw [hd] at hwin
  obtain ⟨ts, ⟨u, hu, e, he, -⟩, -⟩ := (hleast ['x']).1 hwin
  have hnone : (u.swarm.stores.store ['x']).data.get (claimKey ['a'] ['x']) = none := by
    rcases hu with rfl | ⟨a, ha⟩
    · exact hnow
    · exact hbefore _ ha
  rw [hnone] at he
  cases he

end TaskCluster

end Suprime
