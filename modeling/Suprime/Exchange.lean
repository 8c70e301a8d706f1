import Suprime.Reconcile

namespace Suprime
set_option autoImplicit true

/-- How many more messages a message can lead to. -/
def AeBody.weight : AeBody (Stamp T) α → ℕ
  | .digest .. => 4
  | .pull _ => 2
  | .push _ => 1

namespace AeSwarm

variable {T : Type} {α : Type} [LinearOrder T] [PyNone α]

def load (l : List (AeMessage (Stamp T) α)) : ℕ := (l.map (fun m => m.body.weight)).sum

section
omit [LinearOrder T] [PyNone α]

theorem load_eraseIdx {l : List (AeMessage (Stamp T) α)} {i : ℕ} (hi : l[i]? = some m) :
    load (l.eraseIdx i) + m.body.weight = load l := by
  induction l generalizing i with
  | nil => cases hi
  | cons x l ih =>
    cases i with
    | zero =>
      cases hi
      simp only [List.eraseIdx_zero, List.tail_cons, load, List.map_cons, List.sum_cons]
      omega
    | succ i =>
      have hload := ih hi
      simp only [load, List.eraseIdx_cons_succ, List.map_cons, List.sum_cons] at hload ⊢
      omega

theorem load_append (l l' : List (AeMessage (Stamp T) α)) : load (l ++ l') = load l + load l' := by
  rw [load, List.map_append, List.sum_append]
  rfl

end

theorem weight_replies {lib : HashLib (Stamp T)} {s : AntiEntropy (Stamp T) α}
    {body : AeBody (Stamp T) α} (h : s.handle lib body = some (service, replies)) (n dst : PyStr) :
    load (replies.map (fun body => (⟨n, dst, body⟩ : AeMessage (Stamp T) α))) < body.weight := by
  cases body with
  | digest buckets k =>
    obtain ⟨loc, _, h⟩ := Option.bind_eq_some_iff.1 h
    dsimp only at h
    split at h
    · cases h
      exact Nat.succ_pos 3
    · obtain ⟨entries, _, h⟩ := Option.bind_eq_some_iff.1 h
      cases h
      exact Nat.lt_succ_self 3
  | pull buckets =>
    obtain ⟨entries, _, h⟩ := Option.bind_eq_some_iff.1 h
    cases h
    exact Nat.lt_succ_self 1
  | push entries =>
    cases h
    exact Nat.lt_succ_self 0

theorem load_deliver {s s' : AeSwarm (Stamp T) α} {i : ℕ} (hs : s.deliver lib i = some s') :
    load s'.inFlight < load s.inFlight := by
  obtain ⟨m, hi, hcases⟩ := deliver_cases hs
  have herase := load_eraseIdx hi
  rcases hcases with ⟨_, rfl⟩ | ⟨service, replies, hh, rfl⟩
  · have hpos : 0 < m.body.weight := by
      cases m.body with
      | digest => exact Nat.succ_pos 3
      | pull => exact Nat.succ_pos 1
      | push => exact Nat.succ_pos 0
    dsimp only
    omega
  · have hlt := weight_replies hh m.dst m.src
    unfold post
    split
    · dsimp only
      rw [load_append]
      omega
    · dsimp only
      omega

/-- The messages in flight can always be delivered until none is left. -/
theorem exists_drained (lib : HashLib (Stamp T)) (s : AeSwarm (Stamp T) α) :
    ∃ past t, Run (deliver lib) s past t ∧ t.inFlight = [] := by
  induction hn : load s.inFlight using Nat.strong_induction_on generalizing s with
  | _ n ih =>
    cases hfl : s.inFlight with
    | nil => exact ⟨[], s, .start, hfl⟩
    | cons m l =>
      obtain ⟨s', hs'⟩ : ∃ s', s.deliver lib 0 = some s' := by
        simp only [deliver, hfl, List.getElem?_cons_zero, Option.bind_eq_bind, Option.bind_some]
        split
        · exact ⟨_, rfl⟩
        · exact ⟨_, rfl⟩
      obtain ⟨past, t, hr, ht⟩ := ih _ (hn ▸ load_deliver hs') s' rfl
      exact ⟨_, t, (Run.start.next hs').append hr, ht⟩

/-- The exchange that node `a` starts with node `b`: in whatever order its messages arrive it can
be brought to its end, then both stores hold the greatest original entry of every key, and with
equal numbers of buckets no entry of a bucket that is the same on both sides is ever sent. -/
def Reconciles (lib : HashLib (Stamp T)) (s₀ : AeSwarm (Stamp T) α) (a b : PyStr) : Prop :=
  ∀ past t, Run (deliver lib) (s₀.tick lib a b) past t →
    (t.inFlight = [] → ∀ k, ∀ n ∈ [a, b],
      StampedStore.Greatest {e | Original s₀ a b k e} ((t.node n).store.data.get k)) ∧
    (∃ past' u, Run (deliver lib) t past' u ∧ u.inFlight = []) ∧
    ((s₀.node a).nBuckets = (s₀.node b).nBuckets → ∀ m ∈ t.sent, ∀ entries,
      m.body = .push entries → ∀ k x i, entries.get k = some x →
      AntiEntropy.bucketOf lib k (s₀.node a).nBuckets = some i →
      ¬ ∀ r, r ∈ AntiEntropy.rows lib (s₀.node a).store.digest (s₀.node a).nBuckets i ↔
        r ∈ AntiEntropy.rows lib (s₀.node b).store.digest (s₀.node b).nBuckets i)

/-- Both digests can be hashed, and no key has a NaN on one side and another timestamp on the
other. -/
def Comparable (lib : HashLib (Stamp T)) (s₀ : AeSwarm (Stamp T) α) (a b : PyStr) : Prop :=
  AntiEntropy.CanHash lib (s₀.node a).store.digest (s₀.node a).nBuckets ∧
    AntiEntropy.CanHash lib (s₀.node b).store.digest (s₀.node b).nBuckets ∧
    AlikeOriginals s₀ a b

theorem sound_of_run {s₀ t : AeSwarm (Stamp T) α} {past : List (AeSwarm (Stamp T) α × ℕ)}
    (hquiet : s₀.inFlight = []) (hsent : s₀.sent = [])
    (hpa : b ∈ (s₀.node a).peers) (hpb : a ∈ (s₀.node b).peers)
    (hr : Run (deliver lib) (s₀.tick lib a b) past t) : Sound lib s₀ a b t := by
  apply hr.invariant (I := Sound lib s₀ a b) (C := fun _ _ => True) (fun _ _ => trivial)
  · exact sound_tick hquiet hsent hpa
  · exact fun _ _ _ h _ hstep => h.step hpa hpb hstep

theorem due_of_run {s₀ t : AeSwarm (Stamp T) α} {past : List (AeSwarm (Stamp T) α × ℕ)}
    (hquiet : s₀.inFlight = []) (hsent : s₀.sent = [])
    (hpa : b ∈ (s₀.node a).peers) (hpb : a ∈ (s₀.node b).peers)
    (hid : AntiEntropy.Identifies lib (s₀.node a).store.digest (s₀.node b).store.digest
      (s₀.node a).nBuckets (s₀.node b).nBuckets)
    (hc : Comparable lib s₀ a b) (hr : Run (deliver lib) (s₀.tick lib a b) past t) :
    Due lib s₀ a b t := by
  have hboth : Sound lib s₀ a b t ∧ Due lib s₀ a b t := by
    apply hr.invariant (I := fun s => Sound lib s₀ a b s ∧ Due lib s₀ a b s)
      (C := fun _ _ => True) (fun _ _ => trivial)
    · exact ⟨sound_tick hquiet hsent hpa, due_tick hpa hc.1⟩
    · intro s i s' h _ hstep
      exact ⟨h.1.step hpa hpb hstep, h.2.step h.1 hpa hpb hid hc.1 hc.2.1 hc.2.2 hstep⟩
  exact hboth.2

/-- At the end of an exchange between comparable stores each of them covers all originals. -/
theorem covers_of_drained {s₀ t : AeSwarm (Stamp T) α} (hsound : Sound lib s₀ a b t)
    (hdue : Due lib s₀ a b t) (hidle : t.inFlight = []) (hn : n ∈ [a, b])
    (he : Original s₀ a b k e) : Covers (t.node n).store k e := by
  have hnone : ∀ P : AeMessage (Stamp T) α → Prop, ¬ ∃ m ∈ t.inFlight, P m := by
    rintro P ⟨m, hm, _⟩
    rw [hidle] at hm
    cases hm
  rcases List.mem_cons.1 hn with rfl | hn
  · rcases he with he | he
    · exact hsound.keeps n k e he
    · rcases hdue.toA k e he with hc | hdig | hcar
      · exact hc
      · exact absurd hdig (hnone _)
      · exact absurd hcar (hnone _)
  · rw [List.mem_singleton.1 hn]
    rcases he with he | he
    · rcases hdue.toB k e he with hc | hdig | hask | hcar
      · exact hc
      · exact absurd hdig (hnone _)
      · exact absurd hask (hnone _)
      · exact absurd hcar (hnone _)
    · exact hsound.keeps b k e he

theorem greatest_of_same {s₀ t : AeSwarm (Stamp T) α} (hsound : Sound lib s₀ a b t)
    (hsame : (s₀.node a).store.data.Same (s₀.node b).store.data) (hn : n ∈ [a, b]) (k : PyStr) :
    StampedStore.Greatest {e | Original s₀ a b k e} ((t.node n).store.data.get k) := by
  have hab : n = a ∨ n = b := by simpa using hn
  have horig : ∀ e, Original s₀ a b k e ↔ (s₀.node n).store.data.get k = some e := by
    intro e
    rw [Original, ← hsame k, or_self]
    rcases hab with rfl | rfl
    · exact Iff.rfl
    · rw [hsame k]
  cases hk : (t.node n).store.data.get k with
  | none =>
    apply Set.eq_empty_of_forall_notMem
    intro e he
    obtain ⟨e', he', _⟩ := hsound.keeps n k e ((horig e).1 he)
    rw [hk] at he'
    cases he'
  | some e =>
    have he := hsound.original n hab k e hk
    refine ⟨he, fun x hx => .inl ?_⟩
    exact Option.some.inj (((horig x).1 hx).symm.trans ((horig e).1 he))

theorem Sound.not_sent {s₀ t : AeSwarm (Stamp T) α} (hsound : Sound lib s₀ a b t)
    (hn : (s₀.node a).nBuckets = (s₀.node b).nBuckets) {m : AeMessage (Stamp T) α}
    (hm : m ∈ t.sent) (hbody : m.body = .push entries) (hx : entries.get k = some x)
    (hbucket : AntiEntropy.bucketOf lib k (s₀.node a).nBuckets = some i) :
    ¬ ∀ r, r ∈ AntiEntropy.rows lib (s₀.node a).store.digest (s₀.node a).nBuckets i ↔
      r ∈ AntiEntropy.rows lib (s₀.node b).store.digest (s₀.node b).nBuckets i := by
  intro hsame
  have hp := hsound.proper m hm
  rw [Proper, hbody] at hp
  obtain ⟨j, ⟨h, loc, hh, hloc, hj⟩, hbucket'⟩ := (hp.2 k x hx).2
  have hsrc : (s₀.node m.src).nBuckets = (s₀.node a).nBuckets := by
    rcases hp.1 with ⟨hsrc, _⟩ | ⟨hsrc, _⟩
    · rw [hsrc]
    · rw [hsrc, hn]
  rw [hsrc, hbucket] at hbucket'
  cases hbucket'
  exact AntiEntropy.not_mem_diffBuckets hloc hh (fun r => (hsame r).symm) hj

/-- The first delivery, where the digest of node `b` cannot be hashed, changes no store. -/
theorem exists_idle_run {s₀ : AeSwarm (Stamp T) α} (hquiet : s₀.inFlight = [])
    (hpa : b ∈ (s₀.node a).peers)
    (hnot : ¬ (AntiEntropy.CanHash lib (s₀.node a).store.digest (s₀.node a).nBuckets ∧
      AntiEntropy.CanHash lib (s₀.node b).store.digest (s₀.node b).nBuckets)) :
    ∃ past t, Run (deliver lib) (s₀.tick lib a b) past t ∧ t.inFlight = [] ∧
      ∀ n, (t.node n).store = (s₀.node n).store := by
  by_cases ha : AntiEntropy.CanHash lib (s₀.node a).store.digest (s₀.node a).nBuckets
  · obtain ⟨hashes, hash⟩ := ha.exists_bucketHashes
    have hb := AntiEntropy.bucketHashes_eq_none (fun hb => hnot ⟨ha, hb⟩)
    have hstep : (s₀.tick lib a b).deliver lib 0 =
        some { s₀.tick lib a b with inFlight := [] } := by
      simp only [tick, hash, post, if_pos hpa, hquiet, List.map_cons, List.map_nil,
        List.nil_append, deliver, List.getElem?_cons_zero, Option.bind_eq_bind, Option.bind_some,
        AntiEntropy.handle, AntiEntropy.onDigest, hb, Option.bind_none, List.eraseIdx_zero,
        List.tail_cons]
    refine ⟨_, _, Run.start.next hstep, rfl, fun n => ?_⟩
    simp only [tick, hash, post, if_pos hpa]
  · refine ⟨[], _, .start, ?_, fun n => ?_⟩
    · simp only [tick, AntiEntropy.bucketHashes_eq_none ha, hquiet]
    · simp only [tick, AntiEntropy.bucketHashes_eq_none ha]

/-- Where a digest cannot be hashed only stores that are the same already reconcile. -/
theorem Reconciles.same {s₀ : AeSwarm (Stamp T) α} (h : Reconciles lib s₀ a b)
    (hquiet : s₀.inFlight = []) (hpa : b ∈ (s₀.node a).peers)
    (hnot : ¬ (AntiEntropy.CanHash lib (s₀.node a).store.digest (s₀.node a).nBuckets ∧
      AntiEntropy.CanHash lib (s₀.node b).store.digest (s₀.node b).nBuckets)) :
    (s₀.node a).store.data.Same (s₀.node b).store.data := by
  obtain ⟨past, t, hr, hidle, hstore⟩ := exists_idle_run hquiet hpa hnot
  have hgreatest := (h past t hr).1 hidle
  intro k
  rw [← hstore a, ← hstore b]
  exact (hgreatest k a List.mem_cons_self).unique
    (hgreatest k b (List.mem_cons_of_mem _ List.mem_cons_self))

/-- An exchange reconciles two stores exactly where they hold the same already or can be
compared: there are buckets, no text has a surrogate, and no key has a NaN on one side and another
timestamp on the other. -/
theorem exchange_reconciles_iff {T : Type} {α : Type} [LinearOrder T] [PyNone α]
    {lib : HashLib (Stamp T)} {s₀ : AeSwarm (Stamp T) α} {a b : PyStr}
    (hquiet : s₀.inFlight = []) (hsent : s₀.sent = [])
    (hpa : b ∈ (s₀.node a).peers) (hpb : a ∈ (s₀.node b).peers)
    (hid : AntiEntropy.Identifies lib (s₀.node a).store.digest (s₀.node b).store.digest
      (s₀.node a).nBuckets (s₀.node b).nBuckets)
    (hver : ∀ k e e', Original s₀ a b k e → Original s₀ a b k e' →
      e.version = e'.version → e = e') :
    Reconciles lib s₀ a b ↔
      (s₀.node a).store.data.Same (s₀.node b).store.data ∨ Comparable lib s₀ a b := by
  constructor
  · intro h
    by_cases hhash : AntiEntropy.CanHash lib (s₀.node a).store.digest (s₀.node a).nBuckets ∧
        AntiEntropy.CanHash lib (s₀.node b).store.digest (s₀.node b).nBuckets
    · obtain ⟨past, t, hr, hidle⟩ := exists_drained lib (s₀.tick lib a b)
      have hgreatest := (h past t hr).1 hidle
      refine .inr ⟨hhash.1, hhash.2, fun k e e' he he' => ?_⟩
      exact (hgreatest k a List.mem_cons_self).alike he he'
    · exact .inl (h.same hquiet hpa hhash)
  · intro h past t hr
    have hsound := sound_of_run hquiet hsent hpa hpb hr
    refine ⟨fun hidle k n hn => ?_, exists_drained lib t, ?_⟩
    · rcases h with hsame | hc
      · exact greatest_of_same hsound hsame hn k
      · have hdue := due_of_run hquiet hsent hpa hpb hid hc hr
        apply greatest_of_covers _ _ hc.2.2 (hver k)
        · intro e he
          apply hsound.original n _ k e he
          simpa using hn
        · exact fun e he => covers_of_drained hsound hdue hidle hn he
    · intro hn m hm entries hbody k x i hx hbucket
      exact hsound.not_sent hn hm hbody hx hbucket

/-- The `32` bytes of a number, the most significant one first. -/
def bytes32 (n : ℕ) : Bytes :=
  (List.range 32).map (fun i => UInt8.ofNat (n / 256 ^ (31 - i)))

/-- SHA-256 and the texts of floats as far as the exchange of `swarmOfTwo` needs them. -/
def libOfTwo : HashLib (Stamp ℚ) where
  sha256 bytes :=
    if bytes = "x".toUTF8.data.toList then
      bytes32 0x2d711642b726b04401627ca9fbac32f5c8530fb1903cc4db02258717921a4881
    else if bytes = "y".toUTF8.data.toList then
      bytes32 0xa1fce4363854ff888cff4b8e7875d600c2682390412a8cf79b37d0b11148b0fa
    else if bytes = "x|1.0|a|False".toUTF8.data.toList then
      bytes32 0xf0ad8cd8ef50ccc7c39b3c5b5c22e1e29f4ea42d65c19f9f9824d7d7efc54c08
    else if bytes = "x|2.0|b|False".toUTF8.data.toList then
      bytes32 0xa91ef7653a3965feac9741fc7c64d76e0778c6b3a4fd9a2a1df957e52e3c58db
    else if bytes = "y|3.0|b|False".toUTF8.data.toList then
      bytes32 0x88c5d8462895883c34573d4268d6ae01322e8324d79b485b41b8da0e2c43602a
    else []
  format ts :=
    if ts = .num 1 then pyStr ['1', '.', '0']
    else if ts = .num 2 then pyStr ['2', '.', '0']
    else pyStr ['3', '.', '0']

/-- Node `a` holds an old entry of `x`, node `b` a new one and another key. -/
def swarmOfTwo : AeSwarm (Stamp ℚ) (Option ℕ) where
  node n :=
    if n = pyStr ['a'] then
      ⟨⟨pyStr ['a'], .ofList [(pyStr ['x'], ⟨some 1, ⟨.num 1, pyStr ['a']⟩, false⟩)], .num 1⟩, 2,
        [pyStr ['b']], 0, 0⟩
    else
      ⟨⟨pyStr ['b'], .ofList [(pyStr ['x'], ⟨some 2, ⟨.num 2, pyStr ['b']⟩, false⟩),
        (pyStr ['y'], ⟨some 3, ⟨.num 3, pyStr ['b']⟩, false⟩)], .num 3⟩, 3, [pyStr ['a']], 0, 0⟩
  inFlight := []
  sent := []

theorem bucket_of_two (h : AntiEntropy.bucket libOfTwo
    (swarmOfTwo.node (pyStr ['a'])).store.digest 2 i ≠ []) : i = 0 := by
  obtain ⟨p, hp⟩ := List.exists_mem_of_ne_nil _ h
  obtain ⟨hp, hb⟩ := List.mem_filter.1 hp
  have hitems : (swarmOfTwo.node (pyStr ['a'])).store.digest.items.map Prod.fst =
      [pyStr ['x']] := by decide
  have hkey := List.mem_map_of_mem (f := Prod.fst) hp
  rw [hitems] at hkey
  have hx : AntiEntropy.bucketOf libOfTwo (pyStr ['x']) 2 = some 0 := by decide
  rw [List.mem_singleton.1 hkey, hx] at hb
  exact (Option.some.inj (of_decide_eq_true hb)).symm

theorem identifies_of_two : AntiEntropy.Identifies libOfTwo
    (swarmOfTwo.node (pyStr ['a'])).store.digest (swarmOfTwo.node (pyStr ['b'])).store.digest
    (swarmOfTwo.node (pyStr ['a'])).nBuckets (swarmOfTwo.node (pyStr ['b'])).nBuckets := by
  intro i f hi _ hf hf'
  have hzero : i = 0 := bucket_of_two hi
  subst hzero
  have hne : AntiEntropy.fingerprint libOfTwo (AntiEntropy.lines libOfTwo
        (AntiEntropy.bucket libOfTwo (swarmOfTwo.node (pyStr ['a'])).store.digest
          (swarmOfTwo.node (pyStr ['a'])).nBuckets 0)) ≠
      AntiEntropy.fingerprint libOfTwo (AntiEntropy.lines libOfTwo
        (AntiEntropy.bucket libOfTwo (swarmOfTwo.node (pyStr ['b'])).store.digest
          (swarmOfTwo.node (pyStr ['b'])).nBuckets 0)) := by decide
  exact absurd (hf.trans hf'.symm) hne

theorem original_of_two {k : PyStr} {e : Entry (Stamp ℚ) PyStr (Option ℕ)}
    (h : Original swarmOfTwo (pyStr ['a']) (pyStr ['b']) k e) :
    (k, e) ∈ (swarmOfTwo.node (pyStr ['a'])).store.data.items ++
      (swarmOfTwo.node (pyStr ['b'])).store.data.items :=
  List.mem_append.2 (h.imp Dict.mem_items.2 Dict.mem_items.2)

theorem exchange_reconciles_iff_of_two :
    Reconciles libOfTwo swarmOfTwo (pyStr ['a']) (pyStr ['b']) := by
  have hall : ∀ p ∈ (swarmOfTwo.node (pyStr ['a'])).store.data.items ++
      (swarmOfTwo.node (pyStr ['b'])).store.data.items,
      ∀ q ∈ (swarmOfTwo.node (pyStr ['a'])).store.data.items ++
        (swarmOfTwo.node (pyStr ['b'])).store.data.items,
      (p.1 = q.1 → p.2.version = q.2.version → p = q) ∧
        p.2.version.ts.Alike q.2.version.ts := by decide
  have hver : ∀ k e e', Original swarmOfTwo (pyStr ['a']) (pyStr ['b']) k e →
      Original swarmOfTwo (pyStr ['a']) (pyStr ['b']) k e' → e.version = e'.version → e = e' := by
    intro k e e' he he' hv
    exact (Prod.mk.inj ((hall _ (original_of_two he) _ (original_of_two he')).1 rfl hv)).2
  refine (exchange_reconciles_iff rfl rfl (by decide) (by decide) identifies_of_two hver).2
    (.inr ⟨?_, ?_, ?_⟩)
  · obtain ⟨r, hr⟩ := Option.isSome_iff_exists.1 (show (AntiEntropy.bucketHashes libOfTwo
      (swarmOfTwo.node (pyStr ['a'])).store.digest
      (swarmOfTwo.node (pyStr ['a'])).nBuckets).isSome = true by decide)
    exact .of_bucketHashes hr
  · obtain ⟨r, hr⟩ := Option.isSome_iff_exists.1 (show (AntiEntropy.bucketHashes libOfTwo
      (swarmOfTwo.node (pyStr ['b'])).store.digest
      (swarmOfTwo.node (pyStr ['b'])).nBuckets).isSome = true by decide)
    exact .of_bucketHashes hr
  · intro k e e' he he'
    exact (hall _ (original_of_two he) _ (original_of_two he')).2

/-- Half of a surrogate pair, as the texts of JSON may have it. -/
def loneSurrogate : PyStr := [⟨0xD800, by decide⟩]

theorem not_plainText_loneSurrogate : ¬ PlainText loneSurrogate := by
  simp [PlainText, loneSurrogate, isSurrogate, isHigh]

def swarmOfSurrogate : AeSwarm (Stamp ℚ) (Option ℕ) where
  node n :=
    if n = pyStr ['a'] then
      ⟨⟨pyStr ['a'], .ofList [(loneSurrogate, ⟨some 1, ⟨.num 1, pyStr ['a']⟩, false⟩)], .num 1⟩, 2,
        [pyStr ['b']], 0, 0⟩
    else ⟨⟨pyStr ['b'], .empty, .num 0⟩, 2, [pyStr ['a']], 0, 0⟩
  inFlight := []
  sent := []

/-- The digest of such a store cannot be hashed, so nothing is sent. -/
theorem surrogate_key_blocks :
    AntiEntropy.Identifies libOfTwo (swarmOfSurrogate.node (pyStr ['a'])).store.digest
      (swarmOfSurrogate.node (pyStr ['b'])).store.digest 2 2 ∧
    (∀ k e e', Original swarmOfSurrogate (pyStr ['a']) (pyStr ['b']) k e →
      Original swarmOfSurrogate (pyStr ['a']) (pyStr ['b']) k e' →
      e.version = e'.version → e = e') ∧
    ¬ Reconciles libOfTwo swarmOfSurrogate (pyStr ['a']) (pyStr ['b']) := by
  have hb : (swarmOfSurrogate.node (pyStr ['b'])).store.data = .empty := rfl
  refine ⟨?_, ?_, ?_⟩
  · intro i f _ hi
    exact absurd rfl hi
  · intro k e e' he he' _
    rw [Original, hb] at he he'
    rcases he with he | he
    · rcases he' with he' | he'
      · exact Option.some.inj (he.symm.trans he')
      · cases he'
    · cases he
  · intro h
    have hnot : ¬ AntiEntropy.CanHash libOfTwo
        (swarmOfSurrogate.node (pyStr ['a'])).store.digest 2 := by
      intro hc
      have hkey := hc loneSurrogate ⟨some (some 1), .num 1, pyStr ['a'], some false⟩ (by decide)
      exact not_plainText_loneSurrogate hkey.2.1
    have hsame := h.same rfl (by decide) (fun hc => hnot hc.1) loneSurrogate
    exact absurd hsame (by decide)

end AeSwarm

end Suprime
