import Mathlib.Data.Finset.Basic
import Suprime.SecureTransport
import Suprime.StampedStore
import Suprime.Run

namespace Suprime
set_option autoImplicit true

/-- What the library of Python computes: the hash and the text of a timestamp. -/
structure HashLib (T : Type) where
  sha256 : Bytes → Bytes
  format : T → PyStr

def isSurrogate (c : CodePoint) : Bool := isHigh c || isLow c

/-- `s.encode("utf-8")`; `none` stands for `UnicodeEncodeError`. -/
def encode (s : PyStr) : Option Bytes :=
  if s.any isSurrogate then none
  else some (encodeUtf8 (s.map (fun c => Char.ofNat c.val))).data.toList

/-- `int.from_bytes(b, "big")`. -/
def fromBytesBig (b : Bytes) : ℤ := b.foldl (fun n x => n * 256 + x.toNat) 0

/-- `str(b)` of a bool. -/
def formatBool (b : Bool) : PyStr :=
  if b then pyStr ['T', 'r', 'u', 'e'] else pyStr ['F', 'a', 'l', 's', 'e']

namespace AntiEntropy

variable {T : Type} {α : Type}

abbrev Store (T : Type) (α : Type) := DistributedStore T PyStr PyStr α

abbrev Entries (T : Type) (α : Type) := Digest T PyStr PyStr α

/-- `_bucket_of`; `none` where Python raises, for a key with surrogates or the modulus zero. -/
def bucketOf (lib : HashLib T) (key : PyStr) (nBuckets : ℤ) : Option ℤ := do
  let bytes ← encode key
  if nBuckets = 0 then none
  else some ((fromBytesBig ((lib.sha256 bytes).take 4)).fmod nBuckets)

/-- The text of a pair of the digest that goes into the fingerprint of its bucket. -/
def line (lib : HashLib T) (key : PyStr) (entry : EntryData T PyStr α) : PyStr :=
  key ++ pyStr ['|'] ++ lib.format entry.ts ++ pyStr ['|'] ++ entry.origin ++ pyStr ['|'] ++
    formatBool (entry.deleted.getD false)

def addLine (lib : HashLib T) (nBuckets : ℤ) (buckets : Dict ℤ (List PyStr))
    (p : PyStr × EntryData T PyStr α) : Option (Dict ℤ (List PyStr)) := do
  let b ← bucketOf lib p.1 nBuckets
  some (buckets.set b ((buckets.get b).getD [] ++ [line lib p.1 p.2]))

def fingerprint (lib : HashLib T) (items : List PyStr) : Option PyStr := do
  let joined ← encode (List.intercalate (pyStr ['\n']) (items.insertionSort (· ≤ ·)))
  some (hexdigest (lib.sha256 joined))

/-- One fingerprint for each bucket that holds a key. -/
def bucketHashes (lib : HashLib T) (digest : Entries T α) (nBuckets : ℤ) :
    Option (Dict ℤ PyStr) := do
  let buckets ← digest.items.foldlM (addLine lib nBuckets) .empty
  buckets.mapM (fingerprint lib)

/-- The buckets whose fingerprints differ or exist on one side only. -/
def diffBuckets (loc remote : Dict ℤ PyStr) : Finset ℤ :=
  (loc.keys.filter (fun b => loc.get b ≠ remote.get b)).toFinset ∪
    (remote.keys.filter (fun b => b ∉ loc.keys)).toFinset

def entriesForBuckets (lib : HashLib T) (digest : Entries T α) (buckets : Finset ℤ)
    (nBuckets : ℤ) : Option (Entries T α) :=
  if digest.keys.all (fun key => (bucketOf lib key nBuckets).isSome) then
    some (digest.filter (fun key => (bucketOf lib key nBuckets).any (· ∈ buckets)))
  else none

def bucket (lib : HashLib T) (digest : Entries T α) (nBuckets b : ℤ) :
    List (PyStr × EntryData T PyStr α) :=
  digest.items.filter (fun p => bucketOf lib p.1 nBuckets = some b)

def lines (lib : HashLib T) (l : List (PyStr × EntryData T PyStr α)) : List PyStr :=
  l.map (fun p => line lib p.1 p.2)

theorem get_foldlM_addLine {lib : HashLib T} {l : List (PyStr × EntryData T PyStr α)}
    {d r : Dict ℤ (List PyStr)} (h : l.foldlM (addLine lib n) d = some r) (b : ℤ) :
    r.get b = if l.filter (fun p => bucketOf lib p.1 n = some b) = [] then d.get b
      else some ((d.get b).getD [] ++
        lines lib (l.filter (fun p => bucketOf lib p.1 n = some b))) := by
  induction l generalizing d with
  | nil =>
    cases h
    rfl
  | cons p l ih =>
    rw [List.foldlM_cons] at h
    obtain ⟨d', hd', h⟩ := Option.bind_eq_some_iff.1 h
    obtain ⟨b', hb', hd'⟩ := Option.bind_eq_some_iff.1 hd'
    cases hd'
    rw [ih h]
    by_cases hb : b' = b
    · subst hb
      rw [List.filter_cons_of_pos (by simpa using hb')]
      by_cases hl : l.filter (fun p => bucketOf lib p.1 n = some b') = []
      · simp [hl, lines]
      · simp [hl, lines]
    · have hne : ¬ bucketOf lib p.1 n = some b := by
        rw [hb']
        simpa using hb
      rw [List.filter_cons_of_neg (by simpa using hne), Dict.get_set_ne _ _ (Ne.symm hb)]

theorem bucketOf_of_foldlM {lib : HashLib T} {l : List (PyStr × EntryData T PyStr α)}
    {d r : Dict ℤ (List PyStr)} (h : l.foldlM (addLine lib n) d = some r) :
    ∀ p ∈ l, ∃ b, bucketOf lib p.1 n = some b := by
  induction l generalizing d with
  | nil => exact fun p hp => by cases hp
  | cons q l ih =>
    rw [List.foldlM_cons] at h
    obtain ⟨d', hd', h⟩ := Option.bind_eq_some_iff.1 h
    obtain ⟨b, hb, _⟩ := Option.bind_eq_some_iff.1 hd'
    intro p hp
    rcases List.mem_cons.1 hp with rfl | hp
    · exact ⟨b, hb⟩
    · exact ih h p hp

theorem get_bucketHashes {lib : HashLib T} {d : Entries T α} {r : Dict ℤ PyStr}
    (h : bucketHashes lib d n = some r) (b : ℤ) :
    r.get b = if bucket lib d n b = [] then none
      else fingerprint lib (lines lib (bucket lib d n b)) := by
  obtain ⟨buckets, hb, hr⟩ := Option.bind_eq_some_iff.1 h
  rw [Dict.get_mapM hr, get_foldlM_addLine hb, bucket]
  split
  · rfl
  · rfl

theorem exists_fingerprint {lib : HashLib T} {d : Entries T α} {r : Dict ℤ PyStr}
    (h : bucketHashes lib d n = some r) (hb : bucket lib d n b ≠ []) :
    ∃ f, fingerprint lib (lines lib (bucket lib d n b)) = some f := by
  obtain ⟨buckets, hbs, hr⟩ := Option.bind_eq_some_iff.1 h
  have hget := get_foldlM_addLine hbs b
  rw [if_neg (show d.items.filter _ ≠ [] from hb), Dict.get_empty, Option.getD_none,
    List.nil_append] at hget
  exact Dict.exists_of_mapM hr hget

theorem bucketOf_of_bucketHashes {lib : HashLib T} {d : Entries T α} {r : Dict ℤ PyStr}
    (h : bucketHashes lib d n = some r) (hk : d.get k = some e) :
    ∃ b, bucketOf lib k n = some b := by
  obtain ⟨buckets, hb, _⟩ := Option.bind_eq_some_iff.1 h
  exact bucketOf_of_foldlM hb (k, e) (Dict.mem_items.2 hk)

theorem mem_bucket {lib : HashLib T} {d : Entries T α} :
    (k, e) ∈ bucket lib d n b ↔ d.get k = some e ∧ bucketOf lib k n = some b := by
  rw [bucket, List.mem_filter, Dict.mem_items, decide_eq_true_eq]

theorem bucket_ne_nil {lib : HashLib T} {d : Entries T α} (hk : d.get k = some e)
    (hb : bucketOf lib k n = some b) : bucket lib d n b ≠ [] :=
  List.ne_nil_of_mem (mem_bucket.2 ⟨hk, hb⟩)

theorem mem_diffBuckets {loc remote : Dict ℤ PyStr} :
    b ∈ diffBuckets loc remote ↔ loc.get b ≠ remote.get b := by
  simp only [diffBuckets, Finset.mem_union, List.mem_toFinset, List.mem_filter,
    decide_eq_true_eq, Dict.mem_keys]
  constructor
  · rintro (⟨_, h⟩ | ⟨⟨v, hv⟩, h⟩)
    · exact h
    · intro he
      exact h ⟨v, he.trans hv⟩
  · intro h
    cases hl : loc.get b with
    | some v => exact .inl ⟨⟨v, rfl⟩, hl ▸ h⟩
    | none =>
      cases hr : remote.get b with
      | some v =>
        refine .inr ⟨⟨v, rfl⟩, ?_⟩
        rintro ⟨w, hw⟩
        cases hw
      | none => exact absurd (hl.trans hr.symm) h

theorem get_entriesForBuckets {lib : HashLib T} {d r : Entries T α} {buckets : Finset ℤ}
    (h : entriesForBuckets lib d buckets n = some r) :
    r.get k = some e ↔ d.get k = some e ∧ ∃ b ∈ buckets, bucketOf lib k n = some b := by
  unfold entriesForBuckets at h
  split at h
  · cases h
    rw [Dict.get_filter]
    cases hb : bucketOf lib k n with
    | none => simp
    | some b =>
      by_cases hm : b ∈ buckets
      · simp [hm]
      · simp [hm]
  · cases h

end AntiEntropy

/-- The service of one node, with the ids in the membership table of the node. -/
structure AntiEntropy (T : Type) (α : Type) where
  store : AntiEntropy.Store T α
  nBuckets : ℤ
  peers : List PyStr
  entriesSent : ℕ
  entriesReceived : ℕ

/-- The payloads of AE_DIGEST, AE_PULL and AE_PUSH. -/
inductive AeBody (T : Type) (α : Type)
  | digest (buckets : Dict ℤ PyStr) (n : ℤ)
  | pull (buckets : Finset ℤ)
  | push (entries : AntiEntropy.Entries T α)

structure AeMessage (T : Type) (α : Type) where
  src : PyStr
  dst : PyStr
  body : AeBody T α

namespace AntiEntropy

variable {T : Type} {α : Type}

/-- `_on_digest`: the service after it and what it sends to the sender of the message; `none` where
it raises. -/
def onDigest (lib : HashLib T) (s : AntiEntropy T α) (remote : Dict ℤ PyStr) :
    Option (AntiEntropy T α × List (AeBody T α)) := do
  let loc ← bucketHashes lib s.store.digest s.nBuckets
  let mismatched := diffBuckets loc remote
  if mismatched = ∅ then some (s, [])
  else do
    let entries ← entriesForBuckets lib s.store.digest mismatched s.nBuckets
    some ({ s with entriesSent := s.entriesSent + entries.items.length },
      [.push entries, .pull mismatched])

def onPull (lib : HashLib T) (s : AntiEntropy T α) (buckets : Finset ℤ) :
    Option (AntiEntropy T α × List (AeBody T α)) := do
  let entries ← entriesForBuckets lib s.store.digest buckets s.nBuckets
  some ({ s with entriesSent := s.entriesSent + entries.items.length }, [.push entries])

variable [LinearOrder T] [PyNone α]

def onPush (s : AntiEntropy (Stamp T) α) (entries : Entries (Stamp T) α) :
    AntiEntropy (Stamp T) α :=
  { s with
    entriesReceived := s.entriesReceived + entries.items.length
    store := (StampedStore.applyDigest s.store entries).store }

def handle (lib : HashLib (Stamp T)) (s : AntiEntropy (Stamp T) α) :
    AeBody (Stamp T) α → Option (AntiEntropy (Stamp T) α × List (AeBody (Stamp T) α))
  | .digest buckets _ => s.onDigest lib buckets
  | .pull buckets => s.onPull lib buckets
  | .push entries => some (s.onPush entries, [])

end AntiEntropy

/-- Services of any number of nodes and the messages in flight. The last field is history:
every message that was sent. -/
structure AeSwarm (T : Type) (α : Type) where
  node : PyStr → AntiEntropy T α
  inFlight : List (AeMessage T α)
  sent : List (AeMessage T α)

namespace AeSwarm

variable {T : Type} {α : Type}

/-- Node `n` sends to `dst`, which fails if `dst` is not in its membership table. -/
def post (s : AeSwarm T α) (n dst : PyStr) (bodies : List (AeBody T α)) : AeSwarm T α :=
  if dst ∈ (s.node n).peers then
    { s with
      inFlight := s.inFlight ++ bodies.map (fun body => ⟨n, dst, body⟩)
      sent := s.sent ++ bodies.map (fun body => ⟨n, dst, body⟩) }
  else s

/-- `_tick` of node `n` that chose `peer`. Nothing is sent where it raises. -/
def tick (lib : HashLib T) (s : AeSwarm T α) (n peer : PyStr) : AeSwarm T α :=
  match AntiEntropy.bucketHashes lib (s.node n).store.digest (s.node n).nBuckets with
  | none => s
  | some buckets => s.post n peer [.digest buckets (s.node n).nBuckets]

variable [LinearOrder T] [PyNone α]

/-- The `i`-th message in flight arrives. A handler that raises has no effect. -/
def deliver (lib : HashLib (Stamp T)) (s : AeSwarm (Stamp T) α) (i : ℕ) :
    Option (AeSwarm (Stamp T) α) := do
  let m ← s.inFlight[i]?
  match (s.node m.dst).handle lib m.body with
  | none => some { s with inFlight := s.inFlight.eraseIdx i }
  | some (service, replies) =>
    some (({ s with
      inFlight := s.inFlight.eraseIdx i
      node := Function.update s.node m.dst service }).post m.dst m.src replies)

end AeSwarm

end Suprime
