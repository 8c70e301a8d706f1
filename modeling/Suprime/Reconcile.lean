import Suprime.PlainTexts

namespace Suprime
set_option autoImplicit true

namespace AntiEntropy

variable {T : Type} {α : Type}

/-- What the fingerprint of a bucket is meant to identify: key, timestamp, origin and tombstone flag
of each of its pairs. -/
def rows (lib : HashLib T) (d : Entries T α) (n b : ℤ) : List (PyStr × T × PyStr × Bool) :=
  (bucket lib d n b).map (fun p => (p.1, p.2.ts, p.2.origin, p.2.deleted.getD false))

/-- Buckets of one number that both hold keys have the same fingerprint only if they hold the same
rows. -/
def Identifies (lib : HashLib T) (d d' : Entries T α) (n n' : ℤ) : Prop :=
  ∀ b f, bucket lib d n b ≠ [] → bucket lib d' n' b ≠ [] →
    fingerprint lib (lines lib (bucket lib d n b)) = some f →
    fingerprint lib (lines lib (bucket lib d' n' b)) = some f →
    ∀ r, r ∈ rows lib d n b ↔ r ∈ rows lib d' n' b

theorem Identifies.symm {d d' : Entries T α} (h : Identifies lib d d' n n') :
    Identifies lib d' d n' n :=
  fun b f hb hb' hf hf' r => (h b f hb' hb hf' hf r).symm

theorem fingerprint_perm {lib : HashLib T} {l l' : List PyStr} (h : l.Perm l') :
    fingerprint lib l = fingerprint lib l' := by
  have hsort : l.insertionSort (· ≤ ·) = l'.insertionSort (· ≤ ·) := by
    apply List.Perm.eq_of_pairwise' (r := (· ≤ ·))
    · exact List.pairwise_insertionSort _ l
    · exact List.pairwise_insertionSort _ l'
    · exact ((List.perm_insertionSort _ l).trans h).trans (List.perm_insertionSort _ l').symm
  rw [fingerprint, fingerprint, hsort]

theorem nodup_rows (lib : HashLib T) (d : Entries T α) (n b : ℤ) : (rows lib d n b).Nodup := by
  have hkeys : ((bucket lib d n b).map Prod.fst).Nodup :=
    (List.filter_sublist.map _).nodup d.nodup
  apply List.Nodup.of_map Prod.fst
  rw [rows, List.map_map]
  exact hkeys

theorem lines_eq (lib : HashLib T) (d : Entries T α) (n b : ℤ) :
    lines lib (bucket lib d n b) = (rows lib d n b).map (fun r =>
      line lib r.1 (⟨none, r.2.1, r.2.2.1, some r.2.2.2⟩ : EntryData T PyStr α)) := by
  rw [lines, rows, List.map_map]
  rfl

theorem fingerprint_of_rows {lib : HashLib T} {d d' : Entries T α}
    (h : ∀ r, r ∈ rows lib d n b ↔ r ∈ rows lib d' n' b) :
    fingerprint lib (lines lib (bucket lib d n b)) =
      fingerprint lib (lines lib (bucket lib d' n' b)) := by
  rw [lines_eq, lines_eq]
  apply fingerprint_perm
  exact ((List.perm_ext_iff_of_nodup (nodup_rows lib d n b) (nodup_rows lib d' n' b)).2 h).map _

theorem rows_eq_nil {lib : HashLib T} {d : Entries T α} :
    rows lib d n b = [] ↔ bucket lib d n b = [] :=
  List.map_eq_nil_iff

theorem not_mem_diffBuckets {lib : HashLib T} {d d' : Entries T α}
    (hl : bucketHashes lib d n = some loc) (hr : bucketHashes lib d' n' = some remote)
    (h : ∀ r, r ∈ rows lib d n b ↔ r ∈ rows lib d' n' b) : b ∉ diffBuckets loc remote := by
  rw [mem_diffBuckets, not_not, get_bucketHashes hl, get_bucketHashes hr, fingerprint_of_rows h]
  have hnil : bucket lib d n b = [] ↔ bucket lib d' n' b = [] := by
    rw [← rows_eq_nil, ← rows_eq_nil, List.eq_nil_iff_forall_not_mem,
      List.eq_nil_iff_forall_not_mem]
    exact forall_congr' (fun r => not_congr (h r))
  simp only [hnil]

theorem mem_rows {lib : HashLib T} {d : Entries T α} : (k, ts, o, x) ∈ rows lib d n b ↔
    ∃ e, d.get k = some e ∧ bucketOf lib k n = some b ∧ e.ts = ts ∧ e.origin = o ∧
      e.deleted.getD false = x := by
  simp only [rows, List.mem_map, Prod.mk.injEq, Prod.exists, mem_bucket]
  constructor
  · rintro ⟨k', e, ⟨hk, hb⟩, rfl, rfl, rfl, rfl⟩
    exact ⟨e, hk, hb, rfl, rfl, rfl⟩
  · rintro ⟨e, hk, hb, rfl, rfl, rfl⟩
    exact ⟨k, e, ⟨hk, hb⟩, rfl, rfl, rfl, rfl⟩

/-- A key that one side holds is in a bucket that differs, or the other side holds it with the same
version. -/
theorem mem_diffBuckets_or {lib : HashLib T} {d d' : Entries T α} (hid : Identifies lib d d' n n')
    (hl : bucketHashes lib d n = some loc) (hr : bucketHashes lib d' n' = some remote)
    (hk : d.get k = some e) :
    (∃ b, bucketOf lib k n = some b ∧ loc.get b ≠ remote.get b) ∨
      ∃ e', d'.get k = some e' ∧ e'.ts = e.ts ∧ e'.origin = e.origin := by
  obtain ⟨b, hb⟩ := bucketOf_of_bucketHashes hl hk
  by_cases hne : loc.get b ≠ remote.get b
  · exact .inl ⟨b, hb, hne⟩
  · right
    have hbucket := bucket_ne_nil hk hb
    rw [not_not, get_bucketHashes hl, get_bucketHashes hr, if_neg hbucket] at hne
    obtain ⟨f, hf⟩ := exists_fingerprint hl hbucket
    by_cases hbucket' : bucket lib d' n' b = []
    · rw [if_pos hbucket', hf] at hne
      cases hne
    · rw [if_neg hbucket'] at hne
      have hrow : (k, e.ts, e.origin, e.deleted.getD false) ∈ rows lib d n b :=
        mem_rows.2 ⟨e, hk, hb, rfl, rfl, rfl⟩
      rw [hid b f hbucket hbucket' hf (hne ▸ hf)] at hrow
      obtain ⟨e', hk', _, hts, ho, _⟩ := mem_rows.1 hrow
      exact ⟨e', hk', hts, ho⟩

end AntiEntropy

namespace AeMessage

def IsDigest (m : AeMessage (Stamp T) α) : Prop := ∃ h n, m.body = .digest h n

/-- The message carries to node `n` an entry for the key that is at least as new. -/
def Carries [LinearOrder T] [PyNone α] (m : AeMessage (Stamp T) α) (n k : PyStr)
    (e : Entry (Stamp T) PyStr α) : Prop :=
  m.dst = n ∧ ∃ entries x, m.body = .push entries ∧ entries.get k = some x ∧
    e.version.rank ≤ (Entry.fromDict x).version.rank

/-- The message asks node `n` for the bucket of the key. -/
def Asks (lib : HashLib (Stamp T)) (m : AeMessage (Stamp T) α) (n : PyStr) (nBuckets : ℤ)
    (k : PyStr) : Prop :=
  m.dst = n ∧ ∃ buckets b, m.body = .pull buckets ∧ b ∈ buckets ∧
    AntiEntropy.bucketOf lib k nBuckets = some b

end AeMessage

namespace AeSwarm

variable {T : Type} {α : Type} [LinearOrder T] [PyNone α]

def Covers (st : AntiEntropy.Store (Stamp T) α) (k : PyStr) (e : Entry (Stamp T) PyStr α) : Prop :=
  ∃ e', st.data.get k = some e' ∧ e.version.rank ≤ e'.version.rank

theorem Covers.applyDigest {st : AntiEntropy.Store (Stamp T) α} (h : Covers st k e)
    (d : AntiEntropy.Entries (Stamp T) α) : Covers (StampedStore.applyDigest st d).store k e := by
  obtain ⟨e', he', hle⟩ := h
  obtain ⟨e'', he'', hle'⟩ := StampedStore.get_merge_mono he'
    (d.items.map (fun p => (p.1, Entry.fromDict p.2)))
  exact ⟨e'', he'', hle.trans hle'⟩

section
omit [LinearOrder T]

theorem eq_of_mem_fromDict {d : AntiEntropy.Entries (Stamp T) α} (h : d.get k = some x)
    (he : (k, e) ∈ d.items.map (fun p => (p.1, Entry.fromDict p.2))) : e = Entry.fromDict x := by
  obtain ⟨⟨k', x'⟩, hx', hp⟩ := List.mem_map.1 he
  obtain ⟨rfl, rfl⟩ := Prod.mk.inj hp
  rw [Option.some.inj ((Dict.mem_items.1 hx').symm.trans h)]

end

/-- A pushed entry is covered from then on, unless one of its timestamp and the timestamp found is
a NaN. -/
theorem covers_applyDigest (st : AntiEntropy.Store (Stamp T) α)
    {d : AntiEntropy.Entries (Stamp T) α} (h : d.get k = some x)
    (hal : ∀ c, st.data.get k = some c →
      c.version.ts.Alike (Entry.fromDict x : Entry (Stamp T) PyStr α).version.ts) :
    Covers (StampedStore.applyDigest st d).store k (Entry.fromDict x) := by
  have hmem : (k, Entry.fromDict x) ∈ d.items.map (fun p => (p.1, Entry.fromDict p.2)) :=
    List.mem_map.2 ⟨(k, x), Dict.mem_items.2 h, rfl⟩
  have hnew := StampedStore.isNewest_merge (StampedStore.isNewest_held st k)
    (l := d.items.map (fun p => (p.1, Entry.fromDict p.2))) ?_
  · exact hnew.le (.inr hmem)
  · rintro e (he | he) e' (he' | he')
    · rw [Option.some.inj (he.symm.trans he')]
      exact .refl _
    · rw [eq_of_mem_fromDict h he']
      exact hal e he
    · rw [eq_of_mem_fromDict h he]
      exact (hal e' he').symm
    · rw [eq_of_mem_fromDict h he, eq_of_mem_fromDict h he']
      exact .refl _

theorem get_applyDigest_mem {st : AntiEntropy.Store (Stamp T) α}
    {d : AntiEntropy.Entries (Stamp T) α}
    (h : (StampedStore.applyDigest st d).store.data.get k = some e) :
    st.data.get k = some e ∨ ∃ x, d.get k = some x ∧ Entry.fromDict x = e := by
  rcases StampedStore.get_merge_mem h with h | h
  · exact .inl h
  · obtain ⟨⟨k', x⟩, hx, he⟩ := List.mem_map.1 h
    obtain ⟨rfl, rfl⟩ := Prod.mk.inj he
    exact .inr ⟨x, Dict.mem_items.1 hx, rfl⟩

section
omit [LinearOrder T] [PyNone α]

theorem get_digest {st : AntiEntropy.Store (Stamp T) α} :
    st.digest.get k = some x ↔ ∃ e, st.data.get k = some e ∧ e.toDict = x := by
  rw [← Dict.mem_items]
  simp only [DistributedStore.digest, Dict.map, List.mem_map, Prod.mk.injEq, Prod.exists,
    Dict.mem_items]
  constructor
  · rintro ⟨k', e, he, rfl, rfl⟩
    exact ⟨e, he, rfl⟩
  · rintro ⟨e, he, rfl⟩
    exact ⟨k, e, he, rfl, rfl⟩

end

/-- One of the two nodes held the entry at the start. -/
def Original (s₀ : AeSwarm (Stamp T) α) (a b k : PyStr) (e : Entry (Stamp T) PyStr α) : Prop :=
  (s₀.node a).store.data.get k = some e ∨ (s₀.node b).store.data.get k = some e

/-- The bucket differs between the two nodes at the start. -/
def Mismatched (lib : HashLib (Stamp T)) (s₀ : AeSwarm (Stamp T) α) (a b : PyStr) (i : ℤ) : Prop :=
  ∃ h loc, AntiEntropy.bucketHashes lib (s₀.node a).store.digest (s₀.node a).nBuckets = some h ∧
    AntiEntropy.bucketHashes lib (s₀.node b).store.digest (s₀.node b).nBuckets = some loc ∧
    i ∈ AntiEntropy.diffBuckets loc h

/-- What is known of every message of the exchange that node `a` starts. -/
def Proper (lib : HashLib (Stamp T)) (s₀ : AeSwarm (Stamp T) α) (a b : PyStr)
    (m : AeMessage (Stamp T) α) : Prop :=
  match m.body with
  | .digest h _ => (m.src = a ∧ m.dst = b) ∧
      AntiEntropy.bucketHashes lib (s₀.node a).store.digest (s₀.node a).nBuckets = some h
  | .pull buckets => (m.src = b ∧ m.dst = a) ∧ ∀ i ∈ buckets, Mismatched lib s₀ a b i
  | .push entries => (m.src = a ∧ m.dst = b ∨ m.src = b ∧ m.dst = a) ∧
      ∀ k x, entries.get k = some x → Original s₀ a b k (Entry.fromDict x) ∧
        ∃ i, Mismatched lib s₀ a b i ∧
          AntiEntropy.bucketOf lib k (s₀.node m.src).nBuckets = some i

/-- What every state of the exchange keeps, whatever handlers raise. -/
structure Sound (lib : HashLib (Stamp T)) (s₀ : AeSwarm (Stamp T) α) (a b : PyStr)
    (s : AeSwarm (Stamp T) α) : Prop where
  nBuckets : ∀ x, (s.node x).nBuckets = (s₀.node x).nBuckets
  peers : ∀ x, (s.node x).peers = (s₀.node x).peers
  original : ∀ x, x = a ∨ x = b → ∀ k e, (s.node x).store.data.get k = some e →
    Original s₀ a b k e
  keeps : ∀ x k e, (s₀.node x).store.data.get k = some e → Covers (s.node x).store k e
  sent : ∀ m ∈ s.inFlight, m ∈ s.sent
  proper : ∀ m ∈ s.sent, Proper lib s₀ a b m
  alone : ∀ m ∈ s.inFlight, m.IsDigest →
    s.inFlight = [m] ∧ ∀ x, (s.node x).store = (s₀.node x).store

theorem handle_service {lib : HashLib (Stamp T)} {s service : AntiEntropy (Stamp T) α}
    {body : AeBody (Stamp T) α} (h : s.handle lib body = some (service, replies)) :
    service.nBuckets = s.nBuckets ∧ service.peers = s.peers ∧
      ((∃ entries, body = .push entries ∧
          service.store = (StampedStore.applyDigest s.store entries).store) ∨
        (∀ entries, body ≠ .push entries) ∧ service.store = s.store) := by
  cases body with
  | digest buckets n =>
    obtain ⟨loc, _, h⟩ := Option.bind_eq_some_iff.1 h
    dsimp only at h
    split at h
    · cases h
      exact ⟨rfl, rfl, .inr ⟨(fun _ he => by cases he), rfl⟩⟩
    · obtain ⟨entries, _, h⟩ := Option.bind_eq_some_iff.1 h
      cases h
      exact ⟨rfl, rfl, .inr ⟨(fun _ he => by cases he), rfl⟩⟩
  | pull buckets =>
    obtain ⟨entries, _, h⟩ := Option.bind_eq_some_iff.1 h
    cases h
    exact ⟨rfl, rfl, .inr ⟨(fun _ he => by cases he), rfl⟩⟩
  | push entries =>
    cases h
    exact ⟨rfl, rfl, .inl ⟨entries, rfl, rfl⟩⟩

theorem deliver_cases {lib : HashLib (Stamp T)} {s s' : AeSwarm (Stamp T) α}
    (h : s.deliver lib i = some s') :
    ∃ m, s.inFlight[i]? = some m ∧
      (((s.node m.dst).handle lib m.body = none ∧
        s' = { s with inFlight := s.inFlight.eraseIdx i }) ∨
      ∃ service replies, (s.node m.dst).handle lib m.body = some (service, replies) ∧
        s' = ({ s with
          inFlight := s.inFlight.eraseIdx i
          node := Function.update s.node m.dst service }).post m.dst m.src replies) := by
  obtain ⟨m, hm, h⟩ := Option.bind_eq_some_iff.1 h
  refine ⟨m, hm, ?_⟩
  cases hh : (s.node m.dst).handle lib m.body with
  | none =>
    rw [hh] at h
    cases h
    exact .inl ⟨rfl, rfl⟩
  | some r =>
    rw [hh] at h
    cases h
    exact .inr ⟨r.1, r.2, rfl, rfl⟩

theorem Sound.mem {s : AeSwarm (Stamp T) α} {i : ℕ} (h : Sound lib s₀ a b s)
    (hi : s.inFlight[i]? = some m) :
    m ∈ s.inFlight ∧ Proper lib s₀ a b m :=
  ⟨List.mem_of_getElem? hi, h.proper m (h.sent m (List.mem_of_getElem? hi))⟩

section
omit [LinearOrder T]

theorem Proper.ends {m : AeMessage (Stamp T) α} (h : Proper lib s₀ a b m) :
    m.src = a ∧ m.dst = b ∨ m.src = b ∧ m.dst = a := by
  unfold Proper at h
  split at h
  · exact .inl h.1
  · exact .inr h.1
  · exact h.1

end

theorem proper_push {s : AeSwarm (Stamp T) α} (h : Sound lib s₀ a b s)
    (hm : dst = a ∧ src = b ∨ dst = b ∧ src = a) {buckets : Finset ℤ}
    (hb : ∀ i ∈ buckets, Mismatched lib s₀ a b i)
    (he : AntiEntropy.entriesForBuckets lib (s.node dst).store.digest buckets
      (s.node dst).nBuckets = some entries) :
    Proper lib s₀ a b ⟨dst, src, .push entries⟩ := by
  refine ⟨hm, fun k x hx => ?_⟩
  obtain ⟨hget, i, hi, hbucket⟩ := (AntiEntropy.get_entriesForBuckets he).1 hx
  obtain ⟨e, hstore, rfl⟩ := get_digest.1 hget
  rw [h.nBuckets] at hbucket
  refine ⟨?_, i, hb i hi, hbucket⟩
  rw [Entry.fromDict_toDict]
  exact h.original dst (hm.imp And.left And.left) k e hstore

theorem Sound.reply {s : AeSwarm (Stamp T) α} {m : AeMessage (Stamp T) α} {i : ℕ}
    (h : Sound lib s₀ a b s) (hi : s.inFlight[i]? = some m)
    (hh : (s.node m.dst).handle lib m.body = some (service, replies)) :
    ∀ body ∈ replies, Proper lib s₀ a b ⟨m.dst, m.src, body⟩ ∧
      ¬ AeMessage.IsDigest (⟨m.dst, m.src, body⟩ : AeMessage (Stamp T) α) := by
  obtain ⟨hmem, hp⟩ := h.mem hi
  have hends := hp.ends
  have hends' : m.dst = a ∧ m.src = b ∨ m.dst = b ∧ m.src = a :=
    hends.symm.imp And.symm And.symm
  obtain ⟨src, dst, body⟩ := m
  dsimp only at hh hends' ⊢
  cases body with
  | digest buckets n =>
    obtain ⟨⟨hsrc, hdst⟩, hash⟩ := hp
    dsimp only at hsrc hdst
    subst hsrc hdst
    obtain ⟨_, hsame⟩ := h.alone _ hmem ⟨buckets, n, rfl⟩
    obtain ⟨loc, hloc, hh⟩ := Option.bind_eq_some_iff.1 hh
    have hb : ∀ i ∈ AntiEntropy.diffBuckets loc buckets, Mismatched lib s₀ src dst i := by
      intro i hi
      rw [hsame, h.nBuckets] at hloc
      exact ⟨buckets, loc, hash, hloc, hi⟩
    dsimp only at hh
    split at hh
    · cases hh
      exact fun body hbody => by cases hbody
    · obtain ⟨entries, he, hh⟩ := Option.bind_eq_some_iff.1 hh
      cases hh
      intro body hbody
      rcases List.mem_cons.1 hbody with rfl | hbody
      · exact ⟨proper_push h hends' hb he, fun ⟨_, _, hd⟩ => by cases hd⟩
      · rw [List.mem_singleton.1 hbody]
        exact ⟨⟨⟨rfl, rfl⟩, hb⟩, fun ⟨_, _, hd⟩ => by cases hd⟩
  | pull buckets =>
    obtain ⟨entries, he, hh⟩ := Option.bind_eq_some_iff.1 hh
    cases hh
    intro body hbody
    rw [List.mem_singleton.1 hbody]
    exact ⟨proper_push h hends' hp.2 he, fun ⟨_, _, hd⟩ => by cases hd⟩
  | push entries =>
    cases hh
    exact fun body hbody => by cases hbody

theorem eraseIdx_of_alone {l : List β} (h : l = [x]) (hi : l[i]? = some m) :
    l.eraseIdx i = [] := by
  subst h
  cases i with
  | zero => rfl
  | succ i => cases hi

/-- The state after a handler that did not raise, when the receiver knows the sender. -/
def answered (s : AeSwarm (Stamp T) α) (i : ℕ) (m : AeMessage (Stamp T) α)
    (service : AntiEntropy (Stamp T) α) (replies : List (AeBody (Stamp T) α)) :
    AeSwarm (Stamp T) α :=
  { s with
    node := Function.update s.node m.dst service
    inFlight := s.inFlight.eraseIdx i ++ replies.map (fun body => ⟨m.dst, m.src, body⟩)
    sent := s.sent ++ replies.map (fun body => ⟨m.dst, m.src, body⟩) }

theorem Sound.answered {s : AeSwarm (Stamp T) α} {m : AeMessage (Stamp T) α} {i : ℕ}
    (h : Sound lib s₀ a b s) (hi : s.inFlight[i]? = some m)
    (hh : (s.node m.dst).handle lib m.body = some (service, replies)) :
    Sound lib s₀ a b (s.answered i m service replies) := by
  obtain ⟨hmem, hp⟩ := h.mem hi
  obtain ⟨hn, hpeers, hstore⟩ := handle_service hh
  have hreplies := h.reply hi hh
  have hsame : ∀ x, x ≠ m.dst → (s.answered i m service replies).node x = s.node x :=
    fun x hx => Function.update_of_ne hx ..
  have hself : (s.answered i m service replies).node m.dst = service := Function.update_self ..
  refine ⟨?_, ?_, ?_, ?_, ?_, ?_, ?_⟩
  · intro x
    by_cases hx : x = m.dst
    · rw [hx, hself, hn, h.nBuckets]
    · rw [hsame x hx, h.nBuckets]
  · intro x
    by_cases hx : x = m.dst
    · rw [hx, hself, hpeers, h.peers]
    · rw [hsame x hx, h.peers]
  · intro x hx k e he
    by_cases hd : x = m.dst
    · subst hd
      rw [hself] at he
      rcases hstore with ⟨entries, hbody, hst⟩ | ⟨_, hst⟩
      · rw [Proper, hbody] at hp
        rw [hst] at he
        rcases get_applyDigest_mem he with he | ⟨y, hy, rfl⟩
        · exact h.original _ hx k e he
        · exact (hp.2 k y hy).1
      · exact h.original _ hx k e (hst ▸ he)
    · rw [hsame x hd] at he
      exact h.original x hx k e he
  · intro x k e he
    have hcov := h.keeps x k e he
    by_cases hd : x = m.dst
    · subst hd
      rw [hself]
      rcases hstore with ⟨entries, _, hst⟩ | ⟨_, hst⟩
      · rw [hst]
        exact hcov.applyDigest entries
      · rw [hst]
        exact hcov
    · rw [hsame x hd]
      exact hcov
  · intro m' hm'
    rcases List.mem_append.1 hm' with hm' | hm'
    · exact List.mem_append_left _ (h.sent m' (List.mem_of_mem_eraseIdx hm'))
    · exact List.mem_append_right _ hm'
  · intro m' hm'
    rcases List.mem_append.1 hm' with hm' | hm'
    · exact h.proper m' hm'
    · obtain ⟨body, hbody, rfl⟩ := List.mem_map.1 hm'
      exact (hreplies body hbody).1
  · intro m' hm' hd
    rcases List.mem_append.1 hm' with hm' | hm'
    · have hone := (h.alone m' (List.mem_of_mem_eraseIdx hm') hd).1
      rw [eraseIdx_of_alone hone hi] at hm'
      cases hm'
    · obtain ⟨body, hbody, rfl⟩ := List.mem_map.1 hm'
      exact absurd hd (hreplies body hbody).2

theorem Sound.dropped {s : AeSwarm (Stamp T) α} {i : ℕ} (h : Sound lib s₀ a b s)
    (hi : s.inFlight[i]? = some m) :
    Sound lib s₀ a b { s with inFlight := s.inFlight.eraseIdx i } where
  nBuckets := h.nBuckets
  peers := h.peers
  original := h.original
  keeps := h.keeps
  sent m' hm' := h.sent m' (List.mem_of_mem_eraseIdx hm')
  proper := h.proper
  alone m' hm' hd := by
    have hone := (h.alone m' (List.mem_of_mem_eraseIdx hm') hd).1
    rw [eraseIdx_of_alone hone hi] at hm'
    cases hm'

theorem Sound.deliver_cases {s s' : AeSwarm (Stamp T) α} (h : Sound lib s₀ a b s)
    (hpa : b ∈ (s₀.node a).peers) (hpb : a ∈ (s₀.node b).peers) (hs : s.deliver lib i = some s') :
    ∃ m, s.inFlight[i]? = some m ∧
      (((s.node m.dst).handle lib m.body = none ∧
        s' = { s with inFlight := s.inFlight.eraseIdx i }) ∨
      ∃ service replies, (s.node m.dst).handle lib m.body = some (service, replies) ∧
        s' = s.answered i m service replies) := by
  obtain ⟨m, hi, hcases⟩ := AeSwarm.deliver_cases hs
  refine ⟨m, hi, hcases.imp_right ?_⟩
  rintro ⟨service, replies, hh, rfl⟩
  refine ⟨service, replies, hh, ?_⟩
  have hknown : m.src ∈ (Function.update s.node m.dst service m.dst).peers := by
    rw [Function.update_self, (handle_service hh).2.1, h.peers]
    rcases (h.mem hi).2.ends with ⟨hs, hd⟩ | ⟨hs, hd⟩
    · rw [hs, hd]
      exact hpb
    · rw [hs, hd]
      exact hpa
  rw [post, if_pos hknown]
  rfl

/-- What the two nodes still have to tell each other: every entry that one of them held is covered
by the other or on its way. -/
structure Due (lib : HashLib (Stamp T)) (s₀ : AeSwarm (Stamp T) α) (a b : PyStr)
    (s : AeSwarm (Stamp T) α) : Prop where
  toA : ∀ k e, (s₀.node b).store.data.get k = some e → Covers (s.node a).store k e ∨
    (∃ m ∈ s.inFlight, m.IsDigest) ∨ ∃ m ∈ s.inFlight, m.Carries a k e
  toB : ∀ k e, (s₀.node a).store.data.get k = some e → Covers (s.node b).store k e ∨
    (∃ m ∈ s.inFlight, m.IsDigest) ∨
    (∃ m ∈ s.inFlight, m.Asks lib a (s₀.node a).nBuckets k) ∨ ∃ m ∈ s.inFlight, m.Carries b k e

section
omit [LinearOrder T] [PyNone α]

theorem stays {s : AeSwarm (Stamp T) α} {i : ℕ} (hi : s.inFlight[i]? = some m)
    {P : AeMessage (Stamp T) α → Prop} (hP : ¬ P m) (h : ∃ m ∈ s.inFlight, P m)
    (service : AntiEntropy (Stamp T) α) (replies : List (AeBody (Stamp T) α)) :
    ∃ m' ∈ (s.answered i m service replies).inFlight, P m' := by
  obtain ⟨m', hm', hP'⟩ := h
  rcases mem_eraseIdx_or hi hm' with rfl | hm'
  · exact absurd hP' hP
  · exact ⟨m', List.mem_append_left _ hm', hP'⟩

end

/-- The entries of a key at the start have alike timestamps. -/
def AlikeOriginals (s₀ : AeSwarm (Stamp T) α) (a b : PyStr) : Prop :=
  StampedStore.AlikeStamps {p | Original s₀ a b p.1 p.2}

theorem Due.push {s : AeSwarm (Stamp T) α} {m : AeMessage (Stamp T) α} {i : ℕ}
    (h : Due lib s₀ a b s) (hsound : Sound lib s₀ a b s) (hal : AlikeOriginals s₀ a b)
    (hi : s.inFlight[i]? = some m) (hbody : m.body = .push entries)
    (hst : service.store = (StampedStore.applyDigest (s.node m.dst).store entries).store) :
    Due lib s₀ a b (s.answered i m service []) := by
  have hnd : ¬ m.IsDigest := by
    rintro ⟨x, n, hx⟩
    rw [hbody] at hx
    cases hx
  have hna : ∀ k, ¬ m.Asks lib a (s₀.node a).nBuckets k := by
    rintro k ⟨_, buckets, x, hx, _⟩
    rw [hbody] at hx
    cases hx
  have hproper := (hsound.mem hi).2
  have hdst : m.dst = a ∨ m.dst = b := hproper.ends.symm.imp And.right And.right
  rw [Proper, hbody] at hproper
  have horig := fun k x hx => (hproper.2 k x hx).1
  have hcov : ∀ x k e, Covers (s.node x).store k e →
      Covers ((s.answered i m service []).node x).store k e := by
    intro x k e hc
    by_cases hx : x = m.dst
    · subst hx
      rw [show (s.answered i m service []).node m.dst = service from Function.update_self ..,
        hst]
      exact hc.applyDigest entries
    · rw [show (s.answered i m service []).node x = s.node x from Function.update_of_ne hx ..]
      exact hc
  have hcarry : ∀ x k e, (∃ m ∈ s.inFlight, m.Carries x k e) →
      Covers ((s.answered i m service []).node x).store k e ∨
        ∃ m' ∈ (s.answered i m service []).inFlight, m'.Carries x k e := by
    intro x k e hex
    by_cases hm : m.Carries x k e
    · obtain ⟨rfl, entries', y, hb, hy, hle⟩ := hm
      rw [hbody] at hb
      cases hb
      left
      rw [show (s.answered i m service []).node m.dst = service from Function.update_self ..,
        hst]
      obtain ⟨e', he', hle'⟩ := covers_applyDigest (s.node m.dst).store hy
        (fun c hc => hal k _ _ (hsound.original m.dst hdst k c hc) (horig k y hy))
      exact ⟨e', he', hle.trans hle'⟩
    · exact .inr (stays hi hm hex service [])
  constructor
  · intro k e he
    rcases h.toA k e he with hc | hdig | hcar
    · exact .inl (hcov a k e hc)
    · exact .inr (.inl (stays hi hnd hdig service []))
    · exact (hcarry a k e hcar).imp_right .inr
  · intro k e he
    rcases h.toB k e he with hc | hdig | hask | hcar
    · exact .inl (hcov b k e hc)
    · exact .inr (.inl (stays hi hnd hdig service []))
    · exact .inr (.inr (.inl (stays hi (hna k) hask service [])))
    · exact (hcarry b k e hcar).imp_right (fun hc => .inr (.inr hc))

theorem Due.pull {s : AeSwarm (Stamp T) α} {m : AeMessage (Stamp T) α} {i : ℕ}
    (h : Due lib s₀ a b s) (hsound : Sound lib s₀ a b s) (hi : s.inFlight[i]? = some m)
    (hbody : m.body = .pull buckets) (hm : m.src = b ∧ m.dst = a)
    (hst : service.store = (s.node m.dst).store)
    (he : AntiEntropy.entriesForBuckets lib (s.node m.dst).store.digest buckets
      (s.node m.dst).nBuckets = some entries) :
    Due lib s₀ a b (s.answered i m service [.push entries]) := by
  have hnd : ¬ m.IsDigest := by
    rintro ⟨x, n, hx⟩
    rw [hbody] at hx
    cases hx
  have hnc : ∀ x k e, ¬ m.Carries x k e := by
    rintro x k e ⟨_, entries', y, hx, _⟩
    rw [hbody] at hx
    cases hx
  have hstore : ∀ x, ((s.answered i m service [.push entries]).node x).store =
      (s.node x).store := by
    intro x
    by_cases hx : x = m.dst
    · rw [hx, show (s.answered i m service [.push entries]).node m.dst = service from
        Function.update_self .., hst]
    · rw [show (s.answered i m service [.push entries]).node x = s.node x from
        Function.update_of_ne hx ..]
  constructor
  · intro k e hk
    rcases h.toA k e hk with hc | hdig | hcar
    · exact .inl (hstore a ▸ hc)
    · exact .inr (.inl (stays hi hnd hdig service _))
    · exact .inr (.inr (stays hi (hnc a k e) hcar service _))
  · intro k e hk
    rcases h.toB k e hk with hc | hdig | hask | hcar
    · exact .inl (hstore b ▸ hc)
    · exact .inr (.inl (stays hi hnd hdig service _))
    · by_cases hm' : m.Asks lib a (s₀.node a).nBuckets k
      · obtain ⟨hd, buckets', x, hb, hx, hbucket⟩ := hm'
        rw [hbody] at hb
        cases hb
        obtain ⟨e', hget, hle⟩ := hsound.keeps a k e hk
        have hentry : entries.get k = some e'.toDict := by
          rw [AntiEntropy.get_entriesForBuckets he]
          refine ⟨get_digest.2 ⟨e', hm.2 ▸ hget, rfl⟩, x, hx, ?_⟩
          rw [hm.2, hsound.nBuckets]
          exact hbucket
        refine .inr (.inr (.inr ⟨⟨m.dst, m.src, .push entries⟩,
          List.mem_append_right _ List.mem_cons_self, hm.1, entries, _, rfl, hentry, ?_⟩))
        rw [Entry.fromDict_toDict]
        exact hle
      · exact .inr (.inr (.inl (stays hi hm' hask service _)))
    · exact .inr (.inr (.inr (stays hi (hnc b k e) hcar service _)))

section
omit [PyNone α]

theorem differs_or_covers {st st' : AntiEntropy.Store (Stamp T) α}
    (hid : AntiEntropy.Identifies lib st.digest st'.digest n n')
    (hl : AntiEntropy.bucketHashes lib st.digest n = some loc)
    (hr : AntiEntropy.bucketHashes lib st'.digest n' = some remote)
    (hk : st.data.get k = some e) :
    (∃ b, AntiEntropy.bucketOf lib k n = some b ∧ loc.get b ≠ remote.get b) ∨
      Covers st' k e := by
  rcases AntiEntropy.mem_diffBuckets_or hid hl hr (get_digest.2 ⟨e, hk, rfl⟩) with
    hb | ⟨x, hx, hts, ho⟩
  · exact .inl hb
  · obtain ⟨e', he', rfl⟩ := get_digest.1 hx
    refine .inr ⟨e', he', le_of_eq ?_⟩
    obtain ⟨v, ⟨ts, o⟩, d⟩ := e
    obtain ⟨v', ⟨ts', o'⟩, d'⟩ := e'
    cases hts
    cases ho
    rfl

end

theorem Due.digest {s : AeSwarm (Stamp T) α} {m : AeMessage (Stamp T) α} {i : ℕ}
    (hsound : Sound lib s₀ a b s)
    (hid : AntiEntropy.Identifies lib (s₀.node a).store.digest (s₀.node b).store.digest
      (s₀.node a).nBuckets (s₀.node b).nBuckets)
    (hi : s.inFlight[i]? = some m) (hbody : m.body = .digest hashes n)
    (hh : (s.node m.dst).handle lib m.body = some (service, replies)) :
    Due lib s₀ a b (s.answered i m service replies) := by
  obtain ⟨hmem, hp⟩ := hsound.mem hi
  rw [Proper, hbody] at hp
  obtain ⟨⟨hsrc, hdst⟩, hremote⟩ := hp
  obtain ⟨_, hsame⟩ := hsound.alone m hmem ⟨hashes, n, hbody⟩
  obtain ⟨_, _, hservice⟩ := handle_service hh
  have hst : service.store = (s.node m.dst).store := by
    rcases hservice with ⟨entries, hb, _⟩ | ⟨_, hst⟩
    · rw [hbody] at hb
      cases hb
    · exact hst
  have hstore : ∀ x, ((s.answered i m service replies).node x).store = (s₀.node x).store := by
    intro x
    by_cases hx : x = m.dst
    · rw [hx, show (s.answered i m service replies).node m.dst = service from
        Function.update_self .., hst, hsame]
    · rw [show (s.answered i m service replies).node x = s.node x from
        Function.update_of_ne hx .., hsame]
  rw [hbody] at hh
  obtain ⟨loc, hloc, hh⟩ := Option.bind_eq_some_iff.1 hh
  rw [hdst, hsame, hsound.nBuckets] at hloc
  dsimp only at hh
  have hB := fun k e hk => differs_or_covers (k := k) (e := e)
    hid.symm hloc hremote hk
  have hA := fun k e hk => differs_or_covers (k := k) (e := e) hid hremote hloc hk
  split at hh
  · rename_i hempty
    cases hh
    have hnone : ∀ x, ¬ loc.get x ≠ hashes.get x := by
      intro x hx
      rw [← AntiEntropy.mem_diffBuckets, hempty] at hx
      cases hx
    constructor
    · intro k e hk
      left
      rw [hstore]
      exact (hB k e hk).resolve_left (fun ⟨x, _, hx⟩ => hnone x hx)
    · intro k e hk
      left
      rw [hstore]
      exact (hA k e hk).resolve_left (fun ⟨x, _, hx⟩ => hnone x hx.symm)
  · obtain ⟨entries, he, hh⟩ := Option.bind_eq_some_iff.1 hh
    cases hh
    rw [hdst, hsame, hsound.nBuckets] at he
    constructor
    · intro k e hk
      rcases hB k e hk with ⟨x, hx, hne⟩ | hc
      · have hentry : entries.get k = some e.toDict := by
          rw [AntiEntropy.get_entriesForBuckets he]
          exact ⟨get_digest.2 ⟨e, hk, rfl⟩, x, AntiEntropy.mem_diffBuckets.2 hne, hx⟩
        refine .inr (.inr ⟨⟨m.dst, m.src, .push entries⟩,
          List.mem_append_right _ List.mem_cons_self, hsrc, entries, _, rfl, hentry, ?_⟩)
        rw [Entry.fromDict_toDict]
      · exact .inl (hstore a ▸ hc)
    · intro k e hk
      rcases hA k e hk with ⟨x, hx, hne⟩ | hc
      · have hask : (⟨m.dst, m.src, .pull (AntiEntropy.diffBuckets loc hashes)⟩ :
            AeMessage (Stamp T) α).Asks lib a (s₀.node a).nBuckets k :=
          ⟨hsrc, _, x, rfl, AntiEntropy.mem_diffBuckets.2 hne.symm, hx⟩
        refine .inr (.inr (.inl ⟨_, List.mem_append_right _ ?_, hask⟩))
        exact List.mem_cons_of_mem _ List.mem_cons_self
      · exact .inl (hstore b ▸ hc)

theorem Due.dropped {s : AeSwarm (Stamp T) α} {m : AeMessage (Stamp T) α} {i : ℕ}
    (h : Due lib s₀ a b s) (hi : s.inFlight[i]? = some m)
    (hbody : m.body = .pull buckets) (hnil : ∀ k e, (s₀.node a).store.data.get k ≠ some e) :
    Due lib s₀ a b { s with inFlight := s.inFlight.eraseIdx i } := by
  constructor
  · intro k e hk
    have hstays : ∀ P : AeMessage (Stamp T) α → Prop, ¬ P m → (∃ m ∈ s.inFlight, P m) →
        ∃ m ∈ s.inFlight.eraseIdx i, P m := by
      rintro P hP ⟨m', hm', hP'⟩
      rcases mem_eraseIdx_or hi hm' with rfl | hm'
      · exact absurd hP' hP
      · exact ⟨m', hm', hP'⟩
    rcases h.toA k e hk with hc | hdig | hcar
    · exact .inl hc
    · refine .inr (.inl (hstays _ ?_ hdig))
      rintro ⟨x, n, hx⟩
      rw [hbody] at hx
      cases hx
    · refine .inr (.inr (hstays _ ?_ hcar))
      rintro ⟨_, entries, x, hx, _⟩
      rw [hbody] at hx
      cases hx
  · exact fun k e hk => absurd hk (hnil k e)

theorem Sound.of_handle_none {s : AeSwarm (Stamp T) α} {m : AeMessage (Stamp T) α} {i : ℕ}
    (h : Sound lib s₀ a b s) (hi : s.inFlight[i]? = some m)
    (ha : AntiEntropy.CanHash lib (s₀.node a).store.digest (s₀.node a).nBuckets)
    (hb : AntiEntropy.CanHash lib (s₀.node b).store.digest (s₀.node b).nBuckets)
    (hnone : (s.node m.dst).handle lib m.body = none) :
    (∃ buckets, m.body = .pull buckets) ∧ ∀ k e, (s₀.node a).store.data.get k ≠ some e := by
  obtain ⟨hmem, hp⟩ := h.mem hi
  cases hbody : m.body with
  | digest hashes n =>
    rw [Proper, hbody] at hp
    obtain ⟨_, hsame⟩ := h.alone m hmem ⟨hashes, n, hbody⟩
    obtain ⟨loc, hloc⟩ := hb.exists_bucketHashes
    obtain ⟨entries, he⟩ := AntiEntropy.exists_entriesForBuckets lib
      (fun k x hx => ⟨(hb k x hx).1, (hb k x hx).2.1⟩) (AntiEntropy.diffBuckets loc hashes)
    rw [hbody, hp.1.2] at hnone
    simp only [AntiEntropy.handle, AntiEntropy.onDigest, hsame, h.nBuckets, hloc,
      Option.bind_eq_bind, Option.bind_some] at hnone
    split at hnone
    · cases hnone
    · rw [he] at hnone
      cases hnone
  | pull buckets =>
    rw [Proper, hbody] at hp
    refine ⟨⟨buckets, rfl⟩, fun k e hk => ?_⟩
    have hn : (s₀.node a).nBuckets ≠ 0 := (ha k _ (get_digest.2 ⟨e, hk, rfl⟩)).1
    obtain ⟨entries, he⟩ := AntiEntropy.exists_entriesForBuckets lib
      (d := (s.node a).store.digest) (n := (s₀.node a).nBuckets) (fun k x hx => by
        obtain ⟨c, hc, rfl⟩ := get_digest.1 hx
        refine ⟨hn, ?_⟩
        rcases h.original a (.inl rfl) k c hc with hc | hc
        · exact (ha k _ (get_digest.2 ⟨c, hc, rfl⟩)).2.1
        · exact (hb k _ (get_digest.2 ⟨c, hc, rfl⟩)).2.1) buckets
    rw [hbody, hp.1.2] at hnone
    simp only [AntiEntropy.handle, AntiEntropy.onPull, h.nBuckets, he, Option.bind_eq_bind,
      Option.bind_some] at hnone
    cases hnone
  | push entries =>
    rw [hbody] at hnone
    cases hnone

theorem Sound.step {s s' : AeSwarm (Stamp T) α} {i : ℕ} (h : Sound lib s₀ a b s)
    (hpa : b ∈ (s₀.node a).peers) (hpb : a ∈ (s₀.node b).peers)
    (hs : s.deliver lib i = some s') : Sound lib s₀ a b s' := by
  obtain ⟨m, hi, ⟨_, rfl⟩ | ⟨service, replies, hh, rfl⟩⟩ := h.deliver_cases hpa hpb hs
  · exact h.dropped hi
  · exact h.answered hi hh

theorem Due.step {s s' : AeSwarm (Stamp T) α} {i : ℕ} (hdue : Due lib s₀ a b s)
    (h : Sound lib s₀ a b s) (hpa : b ∈ (s₀.node a).peers) (hpb : a ∈ (s₀.node b).peers)
    (hid : AntiEntropy.Identifies lib (s₀.node a).store.digest (s₀.node b).store.digest
      (s₀.node a).nBuckets (s₀.node b).nBuckets)
    (ha : AntiEntropy.CanHash lib (s₀.node a).store.digest (s₀.node a).nBuckets)
    (hb : AntiEntropy.CanHash lib (s₀.node b).store.digest (s₀.node b).nBuckets)
    (hal : AlikeOriginals s₀ a b) (hs : s.deliver lib i = some s') : Due lib s₀ a b s' := by
  obtain ⟨m, hi, ⟨hnone, rfl⟩ | ⟨service, replies, hh, rfl⟩⟩ := h.deliver_cases hpa hpb hs
  · obtain ⟨⟨buckets, hbody⟩, hnil⟩ := h.of_handle_none hi ha hb hnone
    exact hdue.dropped hi hbody hnil
  · obtain ⟨_, hp⟩ := h.mem hi
    cases hbody : m.body with
    | digest hashes n => exact Due.digest h hid hi hbody hh
    | pull buckets =>
      rw [Proper, hbody] at hp
      rw [hbody] at hh
      obtain ⟨entries, he, hh⟩ := Option.bind_eq_some_iff.1 hh
      cases hh
      exact hdue.pull h hi hbody hp.1 rfl he
    | push entries =>
      rw [hbody] at hh
      cases hh
      exact hdue.push h hal hi hbody rfl

/-- Before the first delivery nothing but the digest of node `a` is in flight. -/
theorem sound_tick {s₀ : AeSwarm (Stamp T) α} (hquiet : s₀.inFlight = []) (hsent : s₀.sent = [])
    (hpa : b ∈ (s₀.node a).peers) : Sound lib s₀ a b (s₀.tick lib a b) := by
  have horig : ∀ x, x = a ∨ x = b → ∀ k e, (s₀.node x).store.data.get k = some e →
      Original s₀ a b k e := by
    rintro x (rfl | rfl) k e he
    · exact .inl he
    · exact .inr he
  unfold tick
  split
  · refine ⟨fun _ => rfl, fun _ => rfl, horig, fun x k e he => ⟨e, he, le_rfl⟩, ?_, ?_, ?_⟩
    · exact fun m hm => by rw [hquiet] at hm; cases hm
    · exact fun m hm => by rw [hsent] at hm; cases hm
    · exact fun m hm => by rw [hquiet] at hm; cases hm
  · rename_i hashes hash
    rw [post, if_pos hpa, hquiet, hsent]
    have hone : ∀ m ∈ [(⟨a, b, .digest hashes (s₀.node a).nBuckets⟩ : AeMessage (Stamp T) α)],
        m = ⟨a, b, .digest hashes (s₀.node a).nBuckets⟩ := fun m hm => List.mem_singleton.1 hm
    refine ⟨fun _ => rfl, fun _ => rfl, horig, fun x k e he => ⟨e, he, le_rfl⟩,
      fun m hm => hm, ?_, ?_⟩
    · intro m hm
      rw [hone m hm]
      exact ⟨⟨rfl, rfl⟩, hash⟩
    · intro m hm _
      refine ⟨?_, fun _ => rfl⟩
      rw [hone m hm]
      rfl

theorem due_tick {s₀ : AeSwarm (Stamp T) α} (hpa : b ∈ (s₀.node a).peers)
    (ha : AntiEntropy.CanHash lib (s₀.node a).store.digest (s₀.node a).nBuckets) :
    Due lib s₀ a b (s₀.tick lib a b) := by
  obtain ⟨hashes, hash⟩ := ha.exists_bucketHashes
  simp only [tick, hash, post, if_pos hpa]
  constructor
  · exact fun _ _ _ => .inr (.inl ⟨_, List.mem_append_right _ List.mem_cons_self, _, _, rfl⟩)
  · exact fun _ _ _ => .inr (.inl ⟨_, List.mem_append_right _ List.mem_cons_self, _, _, rfl⟩)

section
omit [PyNone α]

theorem greatest_of_covers {st : AntiEntropy.Store (Stamp T) α} {k : PyStr}
    (horig : ∀ e, st.data.get k = some e → Original s₀ a b k e)
    (hcov : ∀ e, Original s₀ a b k e → Covers st k e) (hal : AlikeOriginals s₀ a b)
    (hver : ∀ e e', Original s₀ a b k e → Original s₀ a b k e' → e.version = e'.version → e = e') :
    StampedStore.Greatest {e | Original s₀ a b k e} (st.data.get k) := by
  apply StampedStore.greatest_of_isNewest
  · cases hk : st.data.get k with
    | none =>
      apply Set.eq_empty_of_forall_notMem
      intro e he
      obtain ⟨e', he', _⟩ := hcov e he
      rw [hk] at he'
      cases he'
    | some e =>
      refine ⟨horig e hk, fun x hx => ?_⟩
      obtain ⟨e', he', hle⟩ := hcov x hx
      rw [hk] at he'
      cases he'
      exact hle
  · exact fun e he e' he' => hal k e e' he he'
  · exact fun e he e' he' => hver e e' he he'

end

end AeSwarm

end Suprime
