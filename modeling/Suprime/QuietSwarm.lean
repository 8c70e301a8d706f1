import Suprime.CrdtDigests
import Suprime.ReplicatorSwarm

namespace Suprime
set_option autoImplicit true

namespace Replicate.ReplicatorSwarm

variable {ν κ ω σ F : Type} [DecidableEq ν] [DecidableEq κ] [FiniteFloat F] [DecidableEq F]
  [UnicodeData]

section
variable {L : Type u} [SemilatticeSup L] {X : Crdt ω σ F} {good : σ → Prop} {view : σ → L}
  {name : κ}

section
omit [DecidableEq F]

theorem view_run {s s' : ReplicatorSwarm ν κ σ F} (hX : Joins X good view) (h : s.Ok X good name)
    (hrun : Run (step X) s past s') (hreg : ∀ p ∈ past, Registers good name p.1 p.2)
    (hc : (s.node n).get name = some c) :
    s'.Ok X good name ∧ ∃ c', (s'.node n).get name = some c' ∧ view c ≤ view c' := by
  induction hrun with
  | start => exact ⟨h, c, hc, le_rfl⟩
  | @next past u a u' hr hs ih =>
    obtain ⟨hok, c', hc', hle⟩ := ih (fun p hp => hreg p (List.mem_cons_of_mem _ hp))
    have hC := hreg _ List.mem_cons_self
    obtain ⟨c'', hc'', hle'⟩ := view_step hX hok hC hs hc'
    exact ⟨hok.step hX hC hs, c'', hc'', hle.trans hle'⟩

theorem sent_run {s s' : ReplicatorSwarm ν κ σ F} (hrun : Run (step X) s past s') :
    s.sent <+: s'.sent := by
  induction hrun with
  | start => exact List.prefix_rfl
  | next _ hs ih =>
    obtain ⟨l, hl, _⟩ := sent_step hs
    exact ih.trans (hl ▸ List.prefix_append _ _)

theorem lastSent_step {s s' : ReplicatorSwarm ν κ σ F} {a : ReplicatorAction ν κ ω σ}
    (hs : s.step X a = some s') (hno : ¬ Ships X s a n name) :
    (s'.node n).lastSent.get name = (s.node n).lastSent.get name := by
  rcases step_cases hs with ⟨k, name', crdt, onChange, rfl, rfl⟩ | ⟨k, name', op, r, rfl, hr, rfl⟩ |
    ⟨k, alive, drawn, rfl, rfl⟩ | ⟨i, m, rfl, hm, rfl⟩
  · rw [node_setNode]
    by_cases hn : n = k
    · rw [hn, Function.update_self, CRDTReplicator.lastSent_register]
    · rw [Function.update_of_ne hn]
  · rw [node_setNode]
    by_cases hn : n = k
    · obtain ⟨c, c', _, _, rfl⟩ := CRDTReplicator.performOn_spec hr
      rw [hn, Function.update_self]
    · rw [Function.update_of_ne hn]
  · dsimp only
    rw [node_setNode]
    by_cases hn : n = k
    · subst hn
      rw [Function.update_self]
      rcases (s.node n).lastSent_tick X alive drawn name with ⟨payload, c, hout, _, hpayload, _⟩ |
        ⟨_, hsent⟩
      · refine absurd ⟨alive, drawn, _, payload, rfl, hout, ?_⟩ hno
        rw [hpayload]
        exact Option.some_ne_none _
      · exact hsent
    · rw [Function.update_of_ne hn]
  · rw [node_setNode]
    by_cases hn : n = m.dst
    · rw [hn, Function.update_self, ((s.node m.dst).synced_onSync X m.payload).lastSent]
    · rw [Function.update_of_ne hn]

theorem lastSent_run {s s' : ReplicatorSwarm ν κ σ F} (hrun : Run (step X) s past s')
    (hno : ∀ p ∈ past, ¬ Ships X p.1 p.2 n name) :
    (s'.node n).lastSent.get name = (s.node n).lastSent.get name := by
  induction hrun with
  | start => rfl
  | next _ hs ih =>
    rw [lastSent_step hs (hno _ List.mem_cons_self)]
    exact ih (fun p hp => hno p (List.mem_cons_of_mem _ hp))

/-- A node that takes in a digest shows at least what the object shows that it was made from. -/
theorem view_takes {s s' : ReplicatorSwarm ν κ σ F} {a : ReplicatorAction ν κ ω σ}
    (hX : Joins X good view) (h : s.Ok X good name) (hs : s.step X a = some s')
    (ht : Takes X s a i n name) {m : SyncMessage ν κ F} (hm : s.sent[i]? = some m)
    (hdst : m.dst = n) {b : σ} (hb : good b) (hd : m.payload.get name = some (X.digest b)) :
    ∃ c, (s'.node n).get name = some c ∧ view b ≤ view c := by
  obtain ⟨rfl, hreg, hraised⟩ := ht
  obtain ⟨_, hm', hs⟩ := Option.bind_eq_some_iff.1 hs
  cases hm.symm.trans hm'
  cases hs
  subst hdst
  rw [node_setNode, Function.update_self]
  rcases ((s.node m.dst).synced_onSync X m.payload).get name with ⟨_, hall⟩ | ⟨c, d, hc, hd', hget⟩
  · rcases hall (hraised m hm) with hnone | hnone
    · exact absurd hnone hreg
    · rw [Dict.get, hnone] at hd
      cases hd
  · rw [Dict.get, hd'] at hd
    cases hd
    refine ⟨_, hget, ?_⟩
    rw [(hX.apply (h.node _ c hc) hb).2]
    exact le_sup_right

end

section
omit [DecidableEq ν] [DecidableEq κ] [FiniteFloat F] [DecidableEq F] [UnicodeData]

theorem getElem?_messages {targets : List ν} (payload : Dict κ (PyValue F))
    (hk : targets[k]? = some n) (m : ν) (l : List (SyncMessage ν κ F)) :
    (l ++ messages m (some (targets, payload)))[l.length + k]? = some ⟨m, n, payload⟩ := by
  rw [List.getElem?_append_right (Nat.le_add_right _ _), Nat.add_sub_cancel_left, messages,
    List.getElem?_map, hk]
  rfl

end

section
omit [DecidableEq F]

/-- Where the last digest that a node has sent arrived, the other node shows as much, as long as
the object has not changed since. -/
theorem Reached.view_le {s : ReplicatorSwarm ν κ σ F} {fanout fullSyncEvery : ν → ℕ}
    (h : Reached X past name m n) (hX : Joins X good view)
    (hrun : Run (step X) (init fanout fullSyncEvery) past s)
    (hreg : ∀ p ∈ past, Registers good name p.1 p.2) (hb : (s.node m).get name = some b)
    (hquiet : ¬ (s.node m).Dirty X name b) :
    ∃ c, (s.node n).get name = some c ∧ view b ≤ view c := by
  obtain ⟨post, t, alive, drawn, pre, targets, payload, k, rfl, hout, hship, hk, hno, p, hp,
    htakes⟩ := h
  have hgood := (Ok.of_run hX hrun hreg).node m b hb
  obtain ⟨t', hpre, ht, hpost⟩ := hrun.split
  have hregPost : ∀ q ∈ post, Registers good name q.1 q.2 :=
    fun q hq => hreg q (List.mem_append_left _ hq)
  have hokT := Ok.of_run hX hpre
    (fun q hq => hreg q (List.mem_append_right _ (List.mem_cons_of_mem _ hq)))
  have hokT' := hokT.step hX (hreg _ (List.mem_append_right _ List.mem_cons_self)) ht
  have hnode : t'.node m = ((t.node m).tick X alive drawn).1 ∧
      t'.sent = t.sent ++ messages m (some (targets, payload)) := by
    rcases step_cases ht with ⟨_, _, _, _, ha, _⟩ | ⟨_, _, _, _, ha, _⟩ |
      ⟨_, _, _, ha, rfl⟩ | ⟨_, _, ha, _⟩
    · cases ha
    · cases ha
    · cases ha
      rw [← hout]
      exact ⟨Function.update_self _ _ _, rfl⟩
    · cases ha
  -- what was sent is the digest of the object as it is now
  have hdigest : payload.get name = some (X.digest b) := by
    rcases (t.node m).lastSent_tick X alive drawn name with ⟨_, c₀, hout', _, hpayload, hsent⟩ |
      ⟨hnone, _⟩
    · cases hout.symm.trans hout'
      rw [← hnode.1, ← lastSent_run hpost hno, not_not.1 hquiet] at hsent
      rw [hpayload, repr_injective (Option.some.inj hsent)]
    · exact absurd (hnone _ hout) hship
  obtain ⟨u, a⟩ := p
  obtain ⟨early, late, u', rfl, hearly, hu, hlate⟩ := hpost.of_mem_past hp
  have hmessage : u.sent[t.sent.length + k]? = some ⟨m, n, payload⟩ := by
    obtain ⟨l, hl⟩ := sent_run hearly
    have hget := getElem?_messages payload hk m t.sent
    rw [← hnode.2] at hget
    rw [← hl, List.getElem?_append_left (List.getElem?_eq_some_iff.1 hget).1]
    exact hget
  have hokU : u.Ok X good name := hearly.invariant
    (fun q hq => hregPost q (List.mem_append_right _ (List.mem_cons_of_mem _ hq))) hokT'
    (fun _ _ _ hs hC hstep => hs.step hX hC hstep)
  obtain ⟨c', hc', hle⟩ := view_takes hX hokU hu htakes hmessage rfl hgood hdigest
  have hokU' := hokU.step hX (hregPost _ (List.mem_append_right _ List.mem_cons_self)) hu
  obtain ⟨_, c, hc, hle'⟩ := view_run hX hokU' hlate
    (fun q hq => hregPost q (List.mem_append_left _ hq)) hc'
  exact ⟨c, hc, hle.trans hle'⟩

/-- A swarm that has gone quiet has converged: when no object differs from the digest that was sent
last, and the last messages have reached every node from every other one along some path, the
objects of a name all show the same. -/
theorem quiet_swarm_agrees {s : ReplicatorSwarm ν κ σ F} {fanout fullSyncEvery : ν → ℕ}
    (hX : Joins X good view) (hrun : Run (step X) (init fanout fullSyncEvery) past s)
    (hreg : ∀ p ∈ past, Registers good name p.1 p.2)
    (hquiet : ∀ n c, (s.node n).get name = some c → ¬ (s.node n).Dirty X name c)
    (hreached : ∀ m n, (s.node m).get name ≠ none → (s.node n).get name ≠ none →
      Relation.ReflTransGen (Reached X past name) m n) :
    ∀ m n b c, (s.node m).get name = some b → (s.node n).get name = some c → view b = view c := by
  have hle : ∀ m n b c, (s.node m).get name = some b → (s.node n).get name = some c →
      view b ≤ view c := by
    intro m n b c hb hc
    have hpath := hreached m n (hb ▸ Option.some_ne_none _) (hc ▸ Option.some_ne_none _)
    have hend : ∃ c', (s.node n).get name = some c' ∧ view b ≤ view c' := by
      clear hc
      induction hpath with
      | refl => exact ⟨b, hb, le_rfl⟩
      | @tail k n _ hkn ih =>
        obtain ⟨d, hd, hbd⟩ := ih
        obtain ⟨c', hc', hdc⟩ := hkn.view_le hX hrun hreg hd (hquiet k d hd)
        exact ⟨c', hc', hbd.trans hdc⟩
    obtain ⟨c', hc', hbc⟩ := hend
    cases hc.symm.trans hc'
    exact hbc
  intro m n b c hb hc
  exact le_antisymm (hle m n b c hb hc) (hle n m c b hc hb)

end

end

end Replicate.ReplicatorSwarm

namespace PNCounter

open Replicate

variable {F : Type} [FiniteFloat F] [DecidableEq F]

/-- The counter as an object that a replicator keeps. -/
def crdt : Crdt CounterOp (PNCounter PyStr) F where
  perform c op := (c.perform op).map Prod.fst
  digest c := c.digest.toValue
  applyDigest c v :=
    match c.applyValue v with
    | some (c', changed) => (c', some changed)
    | none => (c, none)

section
omit [FiniteFloat F]

theorem readDigest_toValue (d : Digest PyStr) : readDigest (d.toValue : PyValue F) = some d := by
  have hread : ∀ d : Dict PyStr ℤ,
      GCounter.readDigest (GCounter.digestValue d : PyValue F) = some d :=
    fun d => readDict_writeDict (fun _ _ => rfl)
  rw [readDigest, Digest.toValue, getField_writeItems, getField_writeItems]
  change (GCounter.readDigest (GCounter.digestValue d.p)).bind (fun p =>
    (GCounter.readDigest (GCounter.digestValue d.n)).bind (fun n => some ⟨p, n⟩)) = some d
  rw [hread, hread]
  rfl

theorem crdt_apply (a b : PNCounter PyStr) :
    (crdt (F := F)).applyDigest a ((crdt (F := F)).digest b) =
      ((a.applyDigest b.digest).1, some (a.applyDigest b.digest).2) := by
  have happly : a.applyValue (b.digest.toValue : PyValue F) = some (a.applyDigest b.digest) := by
    rw [applyValue, readDigest_toValue, Option.map_some]
  change (match a.applyValue (b.digest.toValue : PyValue F) with
    | some (c', changed) => (c', some changed)
    | none => (a, none)) = _
  rw [happly]

end

def Nonneg (c : PNCounter PyStr) : Prop := ∀ m, 0 ≤ c.p.count m ∧ 0 ≤ c.n.count m

/-- The counts of increments and decrements of every node. -/
def counts (c : PNCounter PyStr) : (PyStr → ℤ) × (PyStr → ℤ) := (c.p.count, c.n.count)

theorem le_increment {c c' : GCounter PyStr} (h : c.increment amount = some c') (m : PyStr) :
    c.count m ≤ c'.count m := by
  obtain ⟨hpos, _, hcount⟩ := GCounter.increment_spec h
  rw [hcount]
  split
  · exact le_add_of_nonneg_right hpos
  · exact le_add_of_nonneg_right le_rfl

section
omit [FiniteFloat F]

theorem joins : ReplicatorSwarm.Joins (crdt (F := F)) Nonneg counts where
  perform := by
    intro c op c' hc h
    obtain ⟨⟨c₁, u⟩, hperform, rfl⟩ := Option.map_eq_some_iff.1 h
    cases op with
    | increment amount =>
      obtain ⟨c₂, hinc, he⟩ := Option.map_eq_some_iff.1 hperform
      cases he
      obtain ⟨p, hp, he⟩ := Option.bind_eq_some_iff.1 hinc
      cases he
      have hle := le_increment hp
      exact ⟨fun m => ⟨(hc m).1.trans (hle m), (hc m).2⟩, ⟨hle, le_rfl⟩⟩
    | decrement amount =>
      obtain ⟨c₂, hdec, he⟩ := Option.map_eq_some_iff.1 hperform
      cases he
      obtain ⟨n, hn, he⟩ := Option.bind_eq_some_iff.1 hdec
      cases he
      have hle := le_increment hn
      exact ⟨fun m => ⟨(hc m).1, (hc m).2.trans (hle m)⟩, ⟨le_rfl, hle⟩⟩
  apply := by
    intro a b ha hb
    rw [crdt_apply]
    have hp : ∀ m, (a.applyDigest b.digest).1.p.count m = max (a.p.count m) (b.p.count m) :=
      fun m => GCounter.count_merge _ _ m (ha m).1
    have hn : ∀ m, (a.applyDigest b.digest).1.n.count m = max (a.n.count m) (b.n.count m) :=
      fun m => GCounter.count_merge _ _ m (ha m).2
    constructor
    · intro m
      rw [hp, hn]
      exact ⟨(ha m).1.trans (le_max_left _ _), (ha m).2.trans (le_max_left _ _)⟩
    · exact Prod.ext (funext hp) (funext hn)

end

theorem value_eq_of_counts {a b : PNCounter PyStr} (h : a.counts = b.counts) :
    a.value = b.value := by
  have hsum : ∀ c d : GCounter PyStr, c.count = d.count → c.value = d.value := by
    intro c d hcd
    rw [c.value_eq_sum (c.counts.keys.toFinset ∪ d.counts.keys.toFinset) (fun m hm =>
        Finset.mem_union_left _ (List.mem_toFinset.2 hm)),
      d.value_eq_sum (c.counts.keys.toFinset ∪ d.counts.keys.toFinset) (fun m hm =>
        Finset.mem_union_right _ (List.mem_toFinset.2 hm)), hcd]
  rw [value, value, hsum _ _ (Prod.mk.inj h).1, hsum _ _ (Prod.mk.inj h).2]

end PNCounter

namespace Replicate.ReplicatorSwarm

/-- One counter counts, and each replicator sends once. -/
def twoCounters : List (ReplicatorAction Bool Unit CounterOp (PNCounter PyStr)) :=
  [.register false () (.init [97]) none, .register true () (.init [98]) none,
    .perform false () (.increment 3), .tick false [true] [], .deliver 0, .tick true [false] [],
    .deliver 1]

def twoCountersPast [UnicodeData] : List (ReplicatorSwarm Bool Unit (PNCounter PyStr) ℕ ×
    ReplicatorAction Bool Unit CounterOp (PNCounter PyStr)) :=
  execPast (step PNCounter.crdt) (init (fun _ => 2) (fun _ => 20)) [] twoCounters

theorem quiet_swarm_agrees_of_twoCounters : ∃ (_ : UnicodeData) (past : _)
    (s : ReplicatorSwarm Bool Unit (PNCounter PyStr) ℕ) (b c : PNCounter PyStr),
    Run (step PNCounter.crdt) (init (fun _ => 2) (fun _ => 20)) past s ∧
      (s.node false).get () = some b ∧ (s.node true).get () = some c ∧ b.value = c.value ∧
      b.value = 3 := by
  have data : UnicodeData := ⟨fun _ => false, fun _ _ => rfl, fun _ _ => rfl⟩
  have hrun : Run (step (PNCounter.crdt (F := ℕ))) (init (fun _ : Bool => 2) (fun _ => 20))
    twoCountersPast _ := Run.start.exec rfl
  refine ⟨data, twoCountersPast, _, _, _, hrun, rfl, rfl, ?_, by decide⟩
  have hreg : ∀ p ∈ twoCountersPast, Registers PNCounter.Nonneg () p.1 p.2 := by
    have hnew : ∀ n, (PNCounter.init n).Nonneg := fun n m => ⟨le_rfl, le_rfl⟩
    refine List.forall_mem_cons.2 ⟨trivial, List.forall_mem_cons.2 ⟨trivial,
      List.forall_mem_cons.2 ⟨trivial, List.forall_mem_cons.2 ⟨trivial,
        List.forall_mem_cons.2 ⟨trivial, ?_⟩⟩⟩⟩⟩
    exact List.forall_mem_cons.2 ⟨fun _ => ⟨hnew _, rfl⟩,
      List.forall_mem_cons.2 ⟨fun _ => ⟨hnew _, rfl⟩, fun p hp => by cases hp⟩⟩
  have hforth : Reached PNCounter.crdt twoCountersPast () false true := by
    refine ⟨twoCountersPast.take 3, _, _, _, twoCountersPast.drop 4, [true], ?payload, 0, rfl,
      ?out, ?named, rfl, ?last,
      twoCountersPast.get ⟨2, show 2 < 7 by decide⟩, ?mem, ?takes⟩
    case out => exact rfl
    case named => exact Option.some_ne_none _
    case last =>
      refine List.forall_mem_cons.2 ⟨?_, List.forall_mem_cons.2 ⟨?_,
        List.forall_mem_cons.2 ⟨?_, fun p hp => by cases hp⟩⟩⟩
      · rintro ⟨_, _, _, _, ha, _⟩
        cases ha
      · rintro ⟨_, _, _, _, ha, _⟩
        cases ha
      · rintro ⟨_, _, _, _, ha, _⟩
        cases ha
    case mem => exact .tail _ (.tail _ (.head _))
    case takes =>
      refine ⟨rfl, Option.some_ne_none _, fun m hm => ?_⟩
      cases hm
      rfl
  have hback : Reached PNCounter.crdt twoCountersPast () true false := by
    refine ⟨twoCountersPast.take 1, _, _, _, twoCountersPast.drop 2, [false], ?payload, 0, rfl,
      ?out, ?named, rfl, ?last,
      twoCountersPast.get ⟨0, show 0 < 7 by decide⟩, ?mem, ?takes⟩
    case out => exact rfl
    case named => exact Option.some_ne_none _
    case last =>
      refine List.forall_mem_cons.2 ⟨?_, fun p hp => by cases hp⟩
      rintro ⟨_, _, _, _, ha, _⟩
      cases ha
    case mem => exact .head _
    case takes =>
      refine ⟨rfl, Option.some_ne_none _, fun m hm => ?_⟩
      cases hm
      rfl
  refine PNCounter.value_eq_of_counts
    (quiet_swarm_agrees PNCounter.joins hrun hreg ?_ ?_ false true _ _ rfl rfl)
  · intro n c hc
    cases n with
    | false =>
      cases hc
      exact not_not.2 rfl
    | true =>
      cases hc
      exact not_not.2 rfl
  · intro m n _ _
    cases m with
    | false =>
      cases n with
      | false => exact .refl
      | true => exact .single hforth
    | true =>
      cases n with
      | false => exact .single hback
      | true => exact .refl

end Replicate.ReplicatorSwarm

end Suprime
