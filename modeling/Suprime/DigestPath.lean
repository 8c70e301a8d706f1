import Suprime.ChangeReports
import Suprime.CrdtDigests
import Suprime.ObservedRemove

namespace Suprime
set_option autoImplicit true

def Replicas.Reachable [DecidableEq ν] (R : ReplicaType ν ω ρ σ) (c : σ) : Prop :=
  ∃ past s n, Run (Replicas.step R) (Replicas.init R) past s ∧ c = s.state n

theorem Replicas.Reflects.reachable [DecidableEq ν] {R : ReplicaType ν ω ρ σ}
    {P : ν → List (Event ν ω ρ) → Finset ℕ → σ → Prop}
    (hR : Reflects R (fun _ _ _ => True) (fun _ => True) P) (hc : Reachable R c) :
    ∃ n log H, CausalLog log ∧ Causal log H ∧ P n log H c := by
  obtain ⟨past, s, n, hrun, rfl⟩ := hc
  obtain ⟨hok, hs⟩ := hR.run hrun (fun p _ => allows_true p.1 p.2)
  exact ⟨n, s.log, s.known n, hok.log, hok.known n, hs.1 n⟩

/-- Applying the digest of a state to a replica is merging the state, and applying it to a fresh
replica gives the state. -/
structure DigestPath (fresh : ν → σ) (merge : σ → σ → σ × Bool) (digest : σ → δ)
    (applyDigest : σ → δ → σ × Bool) (same : σ → σ → Prop) (b : σ) : Prop where
  direct : ∀ a, applyDigest a (digest b) = merge a b
  fresh : ∀ n, same (applyDigest (fresh n) (digest b)).1 b

/-- Applying what JSON text gives back of the digest of a state is merging the state. -/
def JsonPath [FiniteFloat F] [DecidableEq F] (merge : σ → σ → σ × Bool)
    (digestValue : δ → PyValue F) (digest : σ → δ)
    (applyValue : σ → PyValue F → Option (σ × Bool)) (b : σ) : Prop :=
  ∀ a, (loads (dumps (digestValue (digest b)))).bind (applyValue a) = some (merge a b)

theorem DigestPath.of_direct {fresh : ν → σ} {merge : σ → σ → σ × Bool} {digest : σ → δ}
    {applyDigest : σ → δ → σ × Bool} {same : σ → σ → Prop} {b : σ}
    (hdirect : ∀ a, applyDigest a (digest b) = merge a b)
    (hfresh : ∀ n, same (merge (fresh n) b).1 b) :
    DigestPath fresh merge digest applyDigest same b where
  direct := hdirect
  fresh n := by
    rw [hdirect]
    exact hfresh n

theorem RoundTrips.jsonPath [FiniteFloat F] [DecidableEq F] {write : δ → PyValue F}
    {read : PyValue F → Option δ} {P : δ → Prop} (h : RoundTrips write read P)
    {merge : σ → σ → σ × Bool} {digest : σ → δ} {applyDigest : σ → δ → σ × Bool} {b : σ}
    (hb : P (digest b)) (hdirect : ∀ a, applyDigest a (digest b) = merge a b) :
    JsonPath merge write digest (fun a v => (read v).map (applyDigest a)) b := by
  intro a
  obtain ⟨v, hv, hread⟩ := Option.bind_eq_some_iff.1 (h.loads hb)
  rw [hv, Option.bind_some]
  dsimp only
  rw [hread, Option.map_some, hdirect]

namespace GCounter

variable {ν : Type} [DecidableEq ν] [Inhabited ν]

def perform (c : GCounter ν) (amount : ℤ) : Option (GCounter ν × Unit) :=
  (c.increment amount).map (·, ())

def replicaType : ReplicaType ν ℤ Unit (GCounter ν) where
  init := init
  perform := perform
  merge c other := (c.merge other).1
  absorb c other := (c.applyDigest other.digest).1

theorem reflects : Replicas.Reflects (replicaType : ReplicaType ν ℤ Unit (GCounter ν))
    (fun _ _ _ => True) (fun _ => True) (Totals id) where
  init n := .init _ n
  concat hH h e := h.concat hH e
  perform _ hH _ _ h hp := by
    obtain ⟨c, hinc, hc⟩ := Option.map_eq_some_iff.1 hp
    cases hc
    obtain ⟨hpos, hid, hcount⟩ := increment_spec hinc
    rw [h.nodeId] at hcount
    exact h.insert hH hpos hid hcount ()
  merge hl hH _ hK h h' := .merge hl hH hK h h'
  absorb hl hH _ hK h h' _ := .merge hl hH hK h h'.ofDigest

section
omit [Inhabited ν]

theorem same_merge_init (n : ν) {b : GCounter ν} (hb : ∀ m, 0 ≤ b.count m) :
    Same ((init n).merge b).1 b := by
  intro m
  rw [count_merge _ _ _ le_rfl]
  exact max_eq_right (hb m)

end

theorem digestPath {b : GCounter ν} (hb : Replicas.Reachable replicaType b) :
    DigestPath init merge digest applyDigest Same b := by
  obtain ⟨n, log, H, _, _, htotals⟩ := reflects.reachable hb
  exact .of_direct (fun _ => rfl) (fun m => same_merge_init m htotals.count_nonneg)

end GCounter

namespace PNCounter

variable {ν : Type} [DecidableEq ν] [Inhabited ν]

theorem digestPath {b : PNCounter ν} (hb : Replicas.Reachable replicaType b) :
    DigestPath init merge digest applyDigest Same b := by
  obtain ⟨n, log, H, _, _, hp, hn⟩ := reflects.reachable hb
  apply DigestPath.of_direct (fun _ => rfl)
  intro m
  exact ⟨GCounter.same_merge_init m hp.count_nonneg, GCounter.same_merge_init m hn.count_nonneg⟩

end PNCounter

namespace ORSet

variable {ε : Type} [DecidableEq ε] [SetOrder] [HasRepr ε]

theorem digestPath {b : ORSet ε} (hb : b.ReprDistinct) :
    DigestPath init merge digest applyDigest Same b := by
  apply DigestPath.of_direct (fun a => a.applyDigest_digest hb)
  intro n
  constructor
  · intro x
    rw [tags_merge]
    exact Finset.empty_union _
  · rw [removed_merge]
    exact Finset.empty_union _

end ORSet

namespace LWWMap

variable {ν κ α τ : Type} [LinearOrder ν] [Inhabited ν] [DecidableEq κ] [LinearOrder τ]

theorem digestPath (b : LWWMap ν κ α τ) : DigestPath init merge digest applyDigest Same b := by
  apply DigestPath.of_direct (fun a => a.applyDigest_digest b)
  intro n k
  rw [entry_merge]
  cases b.entries.get k <;> rfl

end LWWMap

namespace MVRegister

variable {ν α : Type} [DecidableEq ν] [Inhabited ν] [BEq α]

theorem digestPath {b : MVRegister ν α} (hb : Replicas.Reachable replicaType b) :
    DigestPath init merge digest applyDigest Same b := by
  obtain ⟨m, log, H, hl, hH, h⟩ := latest_reflects.reachable hb
  apply DigestPath.of_direct (fun a => a.applyDigest_digest b)
  intro n
  have hmerge := (Latest.fresh log n).merge hl (Causal.empty log) hH h
  rw [Finset.empty_union] at hmerge
  exact same_of_latest hl hmerge h

end MVRegister

namespace RGA

variable {ν α : Type} [LinearOrder ν] [Inhabited ν]

def Reachable (r : RGA ν α) : Prop :=
  ∃ past s n, Run RgaSwarm.step RgaSwarm.init past s ∧ r = s.replica n

def SameDocument (r r' : RGA ν α) : Prop := r.Same r' ∧ r.toList = r'.toList

theorem digestPath {b : RGA ν α} (hb : b.Reachable) :
    DigestPath init (fun a b => a.merge b.elems) digest applyDigest SameDocument b := by
  obtain ⟨past, s, n, hrun, rfl⟩ := hb
  have hok := RgaSwarm.Ok.of_run hrun
  have hr := hok.replica n
  apply DigestPath.of_direct
  · intro a
    rw [applyDigest, elemsOfDigest_digest (fun i e he => (hr.logged i e he).1)]
  · intro m
    have hmerge := (Ok.init m).merge hr.logged
    have hsame := hmerge.elems_eq hok.log hr (fun i => flagOf_merge (.init m) _ i)
    exact ⟨hsame, hmerge.toList_eq hok.log hr hsame⟩

end RGA

section
variable {ν κ α τ ε F : Type} [LinearOrder ν] [Inhabited ν] [DecidableEq κ] [LinearOrder τ] [BEq α]
  [FiniteFloat F] [LinearOrder F] [BEq (PyValue F)] [UnicodeData] [SetOrder] [DecidableEq ε]
  [ScalarClass ε F]

/-- For every replicated type, applying a digest is merging the state that it was made from, before
and after JSON, and gives that state to a fresh replica. -/
theorem digest_path_eq_merge :
    (∀ b : GCounter ν, Replicas.Reachable GCounter.replicaType b →
      DigestPath GCounter.init GCounter.merge GCounter.digest GCounter.applyDigest
        GCounter.Same b) ∧
    (∀ b : PNCounter ν, Replicas.Reachable PNCounter.replicaType b →
      DigestPath PNCounter.init PNCounter.merge PNCounter.digest PNCounter.applyDigest
        PNCounter.Same b) ∧
    (∀ b : ORSet ε, Replicas.Reachable ORSet.replicaType b →
      DigestPath ORSet.init ORSet.merge ORSet.digest ORSet.applyDigest ORSet.Same b) ∧
    (∀ b : LWWMap ν κ α τ, Replicas.Reachable LWWMap.replicaType b →
      DigestPath LWWMap.init LWWMap.merge LWWMap.digest LWWMap.applyDigest LWWMap.Same b) ∧
    (∀ b : MVRegister ν α, Replicas.Reachable MVRegister.replicaType b →
      DigestPath MVRegister.init MVRegister.merge MVRegister.digest MVRegister.applyDigest
        MVRegister.Same b) ∧
    (∀ b : RGA ν α, b.Reachable →
      DigestPath RGA.init (fun a b => a.merge b.elems) RGA.digest RGA.applyDigest
        RGA.SameDocument b) ∧
    (∀ b : GCounter PyStr, Replicas.Reachable GCounter.replicaType b →
      GCounter.PlainNodes b.digest →
        JsonPath GCounter.merge (GCounter.digestValue (F := F)) GCounter.digest
          GCounter.applyValue b) ∧
    (∀ b : PNCounter PyStr, Replicas.Reachable PNCounter.replicaType b → b.digest.Plain →
      JsonPath PNCounter.merge (PNCounter.Digest.toValue (F := F)) PNCounter.digest
        PNCounter.applyValue b) ∧
    (∀ b : ORSet ε, Replicas.Reachable ORSet.replicaType b → b.digest.Plain →
      JsonPath ORSet.merge ORSet.Digest.toValue ORSet.digest ORSet.applyValue b) ∧
    (∀ b : LWWMap PyStr PyStr (PyValue F) F, Replicas.Reachable LWWMap.replicaType b →
      LWWMap.PlainEntries b.digest →
        JsonPath LWWMap.merge LWWMap.digestValue LWWMap.digest LWWMap.applyValue b) ∧
    (∀ b : MVRegister PyStr (PyValue F), Replicas.Reachable MVRegister.replicaType b →
      b.digest.Plain →
        JsonPath MVRegister.merge MVRegister.Digest.toValue MVRegister.digest
          MVRegister.applyValue b) ∧
    (∀ b : RGA PyStr (PyValue F), b.Reachable → (∀ e ∈ b.digest, RGA.PlainElem e) →
      JsonPath (fun a b => a.merge b.elems) RGA.digestValue RGA.digest RGA.applyValue b) := by
  refine ⟨fun b hb => GCounter.digestPath hb, fun b hb => PNCounter.digestPath hb,
    fun b _ => ORSet.digestPath b.reprDistinct, fun b _ => b.digestPath,
    fun b hb => MVRegister.digestPath hb, fun b hb => RGA.digestPath hb, ?_, ?_, ?_, ?_, ?_, ?_⟩
  · intro b hb hplain
    exact GCounter.roundTrips_digest.jsonPath hplain (GCounter.digestPath hb).direct
  · intro b hb hplain
    exact PNCounter.roundTrips_digest.jsonPath hplain (PNCounter.digestPath hb).direct
  · intro b _ hplain a
    obtain ⟨hnative, hread⟩ := ORSet.roundTrips_digest b.digest hplain
    rw [loads_dumps_native hnative, Option.bind_some, ORSet.applyValue, hread]
    exact congrArg some (a.applyDigest_digest b.reprDistinct)
  · intro b _ hplain
    exact LWWMap.roundTrips_digest.jsonPath hplain b.digestPath.direct
  · intro b hb hplain
    exact MVRegister.roundTrips_digest.jsonPath hplain (MVRegister.digestPath hb).direct
  · intro b hb hplain
    exact RGA.roundTrips_digest.jsonPath hplain (RGA.digestPath hb).direct

end

theorem digest_path_eq_merge_concurrent :
    (∃ b : RGA String Char, b.Reachable ∧
      (∀ a : RGA String Char, a.applyDigest b.digest = a.merge b.elems) ∧
      ((RGA.init "c").applyDigest b.digest).1.toList = some ['z', 'x']) ∧
    (∃ b : PNCounter PyStr, Replicas.Reachable PNCounter.replicaType b ∧ b.value = 3 ∧
      JsonPath PNCounter.merge (PNCounter.Digest.toValue (F := ℕ)) PNCounter.digest
        PNCounter.applyValue b) ∧
    ∃ (_ : BEq (PyValue ℕ)) (b : MVRegister PyStr (PyValue ℕ)),
      Replicas.Reachable MVRegister.replicaType b ∧ b.values.length = 2 ∧
      JsonPath MVRegister.merge MVRegister.Digest.toValue MVRegister.digest
        MVRegister.applyValue b := by
  have data : UnicodeData := ⟨fun _ => false, fun _ _ => rfl, fun _ _ => rfl⟩
  have scalars : ScalarClass (JsonScalar ℕ) ℕ := ⟨id, id, fun _ => rfl⟩
  let equal : BEq (PyValue ℕ) := ⟨fun v w => decide (dumps v = dumps w)⟩
  obtain ⟨_, _, _, _, _, hrga, _, hcounter, _, _, hregister, _⟩ :=
    @digest_path_eq_merge String String Char ℤ (JsonScalar ℕ) ℕ _ _ _ _ _ _ _ _ _ _ _ _
  refine ⟨?_, ?_, ?_⟩
  · obtain ⟨past, s, hrun, hs⟩ := exists_run_of_exec RgaSwarm.step RgaSwarm.init concurrentInserts
      (fun s => (s.replica "a").toList) (some ['z', 'x']) (by decide)
    have hreachable : (s.replica "a").Reachable := ⟨past, s, "a", hrun, rfl⟩
    have hpath := hrga (s.replica "a") hreachable
    exact ⟨s.replica "a", hreachable, hpath.direct, (hpath.fresh "c").2.trans hs⟩
  · obtain ⟨past, s, hrun, hs⟩ := exists_run_of_exec (Replicas.step PNCounter.replicaType)
      (Replicas.init PNCounter.replicaType)
      [.perform [97] (.increment 5), .perform [98] (.decrement 2), .share [98], .merge [97] 0]
      (fun s : Replicas PyStr CounterOp Unit (PNCounter PyStr) => ((s.state [97]).value,
        (s.state [97]).p.counts.items.all (fun p => plain p.1),
        (s.state [97]).n.counts.items.all (fun p => plain p.1))) (3, true, true)
      (by decide)
    obtain ⟨hvalue, hplain⟩ := Prod.mk.inj hs
    obtain ⟨hp, hn⟩ := Prod.mk.inj hplain
    have hplain : (s.state [97]).digest.Plain :=
      ⟨fun p hmem => ⟨List.all_eq_true.1 hp p hmem, trivial⟩,
        fun p hmem => ⟨List.all_eq_true.1 hn p hmem, trivial⟩⟩
    have hreachable : Replicas.Reachable PNCounter.replicaType (s.state [97]) :=
      ⟨past, s, [97], hrun, rfl⟩
    exact ⟨s.state [97], hreachable, hvalue, hcounter (s.state [97]) hreachable hplain⟩
  -- two values that were set concurrently
  · obtain ⟨past, s, hrun, hs⟩ := exists_run_of_exec (Replicas.step MVRegister.replicaType)
      (Replicas.init MVRegister.replicaType)
      [.perform [97] (.int 1), .perform [98] (.list [.none]), .share [98], .merge [97] 0]
      (fun s : Replicas PyStr (PyValue ℕ) (PyValue ℕ × VectorClock PyStr)
          (MVRegister PyStr (PyValue ℕ)) => ((s.state [97]).values.length,
        (s.state [97]).digest.versions.all (fun v =>
          jsonNative v.1 && v.2.items.all (fun p => plain p.1)),
        (s.state [97]).digest.vc.items.all (fun p => plain p.1))) (2, true, true)
      (by decide)
    obtain ⟨hvalues, hplain⟩ := Prod.mk.inj hs
    obtain ⟨hversions, hvc⟩ := Prod.mk.inj hplain
    have hplain : (s.state [97]).digest.Plain := by
      refine ⟨fun v hmem => ?_, fun p hmem => ⟨List.all_eq_true.1 hvc p hmem, trivial⟩⟩
      obtain ⟨hvalue, hclock⟩ := Bool.and_eq_true_iff.1 (List.all_eq_true.1 hversions v hmem)
      exact ⟨hvalue, fun p hp => ⟨List.all_eq_true.1 hclock p hp, trivial⟩⟩
    have hreachable : Replicas.Reachable MVRegister.replicaType (s.state [97]) :=
      ⟨past, s, [97], hrun, rfl⟩
    exact ⟨equal, s.state [97], hreachable, hvalues,
      hregister (s.state [97]) hreachable hplain⟩

end Suprime
