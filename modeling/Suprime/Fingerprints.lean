import Suprime.Exchange
import Suprime.WireAuth

namespace Suprime
set_option autoImplicit true

theorem encode_eq_some {s : PyStr} (h : PlainText s) :
    encode s = some (encodeUtf8 (s.map (fun c => Char.ofNat c.val))).data.toList := by
  have hany : ¬ s.any isSurrogate = true := by
    rw [Bool.not_eq_true, List.any_eq_false]
    intro c hc
    rw [h c hc]
    exact Bool.false_ne_true
  rw [encode, if_neg hany]

theorem map_pyChar_of_plainText {s : PyStr} (h : PlainText s) :
    (s.map (fun c => Char.ofNat c.val)).map pyChar = s := by
  rw [List.map_map]
  have hid : s.map (pyChar ∘ fun c => Char.ofNat c.val) = s.map id := by
    apply List.map_congr_left
    intro c hc
    have hlt := c.isLt
    have hplain := h c hc
    simp only [isSurrogate, isHigh, isLow, Bool.or_eq_false_iff, Bool.and_eq_false_iff,
      decide_eq_false_iff_not] at hplain
    apply pyChar_ofNat
    rw [Nat.isValidChar]
    omega
  rw [hid, List.map_id]

theorem encode_injective {s t : PyStr} (hs : encode s = some b) (ht : encode t = some b) :
    s = t := by
  have hps := plainText_of_encode hs
  have hpt := plainText_of_encode ht
  rw [encode_eq_some hps, Option.some.injEq] at hs
  rw [encode_eq_some hpt, ← hs, Option.some.injEq] at ht
  have hbytes := ByteArray.ext (Array.toList_inj.1 ht)
  rw [← map_pyChar_of_plainText hps, ← encodeUtf8_injective hbytes, map_pyChar_of_plainText hpt]

namespace AntiEntropy

variable {T : Type} {α : Type}

/-- No two texts that the comparison of two digests hashes have the same SHA-256. -/
def NoCollision (lib : HashLib T) (d d' : Entries T α) (n : ℤ) : Prop :=
  ∀ b x y, encode (joined (lines lib (bucket lib d n b))) = some x →
    encode (joined (lines lib (bucket lib d' n b))) = some y → lib.sha256 x = lib.sha256 y → x = y

def Encodable (d : Entries T α) : Prop :=
  ∀ k e, d.get k = some e → PlainText k ∧ PlainText e.origin

/-- Buckets with the same text hold the same rows. -/
def Unambiguous (lib : HashLib T) (d d' : Entries T α) (n : ℤ) : Prop :=
  ∀ b, joined (lines lib (bucket lib d n b)) = joined (lines lib (bucket lib d' n b)) →
    ∀ r, r ∈ rows lib d n b ↔ r ∈ rows lib d' n b

/-- `diff_buckets` of the two fingerprints is the set of buckets whose rows differ. -/
def Detects (lib : HashLib T) (d d' : Entries T α) (n : ℤ) : Prop :=
  ∃ loc remote, bucketHashes lib d n = some loc ∧ bucketHashes lib d' n = some remote ∧
    ∀ b, b ∈ diffBuckets loc remote ↔ ¬ ∀ r, r ∈ rows lib d n b ↔ r ∈ rows lib d' n b

theorem bar_mem_line (lib : HashLib T) (key : PyStr) (e : EntryData T PyStr α) :
    pyChar '|' ∈ line lib key e := by
  rw [line]
  exact List.mem_append_left _ (List.mem_append_right _ (List.mem_singleton.2 rfl))

theorem bucket_eq_nil_of_joined {lib : HashLib T} {d d' : Entries T α}
    (h : joined (lines lib (bucket lib d n b)) = joined (lines lib (bucket lib d' n b)))
    (hd : bucket lib d n b = []) : bucket lib d' n b = [] := by
  by_contra hne
  obtain ⟨p, l, hl⟩ := List.exists_cons_of_ne_nil hne
  have hline : line lib p.1 p.2 ∈ lines lib (bucket lib d' n b) := by
    rw [hl]
    exact List.mem_cons_self
  have hmem := mem_joined hline (bar_mem_line lib p.1 p.2)
  rw [← h, hd] at hmem
  cases hmem

theorem Encodable.of_bucketHashes {lib : HashLib T} {d : Entries T α} {r : Dict ℤ PyStr}
    (h : bucketHashes lib d n = some r) : Encodable d := by
  intro k e hk
  obtain ⟨-, hkey, -, horigin⟩ := CanHash.of_bucketHashes h k e hk
  exact ⟨hkey, horigin⟩

theorem get_eq_iff {lib : HashLib T} {d d' : Entries T α} {loc remote : Dict ℤ PyStr}
    (hsha : NoCollision lib d d' n) (hl : bucketHashes lib d n = some loc)
    (hr : bucketHashes lib d' n = some remote) (b : ℤ) :
    loc.get b = remote.get b ↔
      joined (lines lib (bucket lib d n b)) = joined (lines lib (bucket lib d' n b)) := by
  rw [get_bucketHashes hl, get_bucketHashes hr]
  by_cases hd : bucket lib d n b = []
  · by_cases hd' : bucket lib d' n b = []
    · rw [if_pos hd, if_pos hd', hd, hd']
      exact iff_of_true rfl rfl
    · obtain ⟨f, hf⟩ := exists_fingerprint hr hd'
      rw [if_pos hd, if_neg hd', hf]
      exact iff_of_false (fun h => by cases h) (fun h => hd' (bucket_eq_nil_of_joined h hd))
  · obtain ⟨f, hf⟩ := exists_fingerprint hl hd
    by_cases hd' : bucket lib d' n b = []
    · rw [if_neg hd, if_pos hd', hf]
      exact iff_of_false (fun h => by cases h) (fun h => hd (bucket_eq_nil_of_joined h.symm hd'))
    · obtain ⟨f', hf'⟩ := exists_fingerprint hr hd'
      rw [if_neg hd, if_neg hd']
      constructor
      · intro h
        rw [hf, hf', Option.some.injEq] at h
        rw [fingerprint_eq] at hf hf'
        obtain ⟨x, hx, hfx⟩ := Option.map_eq_some_iff.1 hf
        obtain ⟨y, hy, hfy⟩ := Option.map_eq_some_iff.1 hf'
        rw [← hfx, ← hfy] at h
        rw [hsha b x y hx hy (hexdigest_injective h)] at hx
        exact encode_injective hx hy
      · intro h
        rw [fingerprint_eq, fingerprint_eq, h]

/-- The diff is exact if and only if all keys and origins can be encoded and buckets with the same
text hold the same rows. -/
theorem detects_iff {lib : HashLib T} {d d' : Entries T α} (hsha : NoCollision lib d d' n)
    (hformat : ∀ ts, PlainText (lib.format ts)) (hn : 1 ≤ n) :
    Detects lib d d' n ↔ (Encodable d ∧ Encodable d') ∧ Unambiguous lib d d' n := by
  constructor
  · rintro ⟨loc, remote, hl, hr, hdiff⟩
    refine ⟨⟨.of_bucketHashes hl, .of_bucketHashes hr⟩, ?_⟩
    intro b htext
    have hget := (get_eq_iff hsha hl hr b).2 htext
    have hnot := (hdiff b).not.1 (by rw [mem_diffBuckets, not_not]; exact hget)
    exact not_not.1 hnot
  · rintro ⟨⟨hd, hd'⟩, hunambiguous⟩
    have hn : n ≠ 0 := by omega
    have hcan : ∀ {d : Entries T α}, Encodable d → CanHash lib d n :=
      fun hd k x hk => ⟨hn, (hd k x hk).1, hformat x.ts, (hd k x hk).2⟩
    obtain ⟨loc, hl⟩ := (hcan hd).exists_bucketHashes
    obtain ⟨remote, hr⟩ := (hcan hd').exists_bucketHashes
    refine ⟨loc, remote, hl, hr, ?_⟩
    intro b
    constructor
    · intro hb hsame
      exact not_mem_diffBuckets hl hr hsame hb
    · intro hne
      rw [mem_diffBuckets]
      intro hget
      exact hne (hunambiguous b ((get_eq_iff hsha hl hr b).1 hget))

/-- The text has neither of the characters that `bucket_hashes` puts between texts. -/
def Unseparated (s : PyStr) : Prop := pyChar '|' ∉ s ∧ pyChar '\n' ∉ s

theorem formatBool_injective : Function.Injective formatBool := by
  intro a b h
  cases a <;> cases b <;> first | rfl | exact absurd h (by decide)

theorem unseparated_formatBool (b : Bool) : Unseparated (formatBool b) := by
  cases b <;> exact ⟨by decide, by decide⟩

theorem eq_of_line {lib : HashLib T} (hinj : Function.Injective lib.format)
    (hformat : ∀ ts, Unseparated (lib.format ts)) {k k' o o' : PyStr} {ts ts' : T} {x x' : Bool}
    (hk : Unseparated k) (hk' : Unseparated k') (ho : Unseparated o) (ho' : Unseparated o')
    (h : line lib k (⟨none, ts, o, some x⟩ : EntryData T PyStr α) =
      line lib k' (⟨none, ts', o', some x'⟩ : EntryData T PyStr α)) :
    (k, ts, o, x) = (k', ts', o', x') := by
  have hbar : pyStr ['|'] = [pyChar '|'] := rfl
  simp only [line, hbar, List.append_assoc, List.singleton_append, Option.getD_some] at h
  obtain ⟨hkey, h⟩ := cut_unique hk.1 hk'.1 h
  obtain ⟨hts, h⟩ := cut_unique (hformat ts).1 (hformat ts').1 h
  obtain ⟨horigin, hflag⟩ := cut_unique ho.1 ho'.1 h
  rw [hkey, hinj hts, horigin, formatBool_injective hflag]

theorem Unseparated.append {s t : PyStr} (hs : Unseparated s) (ht : Unseparated t) :
    pyChar '\n' ∉ s ++ pyStr ['|'] ++ t := by
  intro h
  cases List.mem_append.1 h with
  | inl h =>
    cases List.mem_append.1 h with
    | inl h => exact hs.2 h
    | inr h => exact absurd h (by decide)
  | inr h => exact ht.2 h

theorem perm_of_joined {items items' : List PyStr} (h : ∀ t ∈ items, pyChar '\n' ∉ t)
    (h' : ∀ t ∈ items', pyChar '\n' ∉ t) (hne : items ≠ []) (hne' : items' ≠ [])
    (htext : joined items = joined items') : items.Perm items' := by
  have hsplit : ∀ l : List PyStr, (∀ t ∈ l, pyChar '\n' ∉ t) → l ≠ [] →
      (joined l).splitOn (pyChar '\n') = l.insertionSort (· ≤ ·) := by
    intro l hl hne
    apply List.splitOn_intercalate
    · intro t ht
      exact hl t ((List.mem_insertionSort _).1 ht)
    · intro hnil
      have hlen := List.length_insertionSort (fun a b : PyStr => a ≤ b) l
      rw [hnil] at hlen
      exact hne (List.eq_nil_of_length_eq_zero hlen.symm)
  have hsort : items.insertionSort (· ≤ ·) = items'.insertionSort (· ≤ ·) := by
    rw [← hsplit items h hne, htext, hsplit items' h' hne']
  have hperm := List.perm_insertionSort (fun a b : PyStr => a ≤ b) items
  rw [hsort] at hperm
  exact hperm.symm.trans (List.perm_insertionSort _ items')

def UnseparatedDigest (d : Entries T α) : Prop :=
  ∀ k e, d.get k = some e → Unseparated k ∧ Unseparated e.origin

theorem unseparated_row {lib : HashLib T} {d : Entries T α} (hd : UnseparatedDigest d)
    (h : r ∈ rows lib d n b) : Unseparated r.1 ∧ Unseparated r.2.2.1 := by
  obtain ⟨k, ts, o, x⟩ := r
  obtain ⟨e, he, -, -, rfl, -⟩ := mem_rows.1 h
  exact hd k e he

theorem newline_notMem_lines {lib : HashLib T} (hformat : ∀ ts, Unseparated (lib.format ts))
    {d : Entries T α} (hd : UnseparatedDigest d) :
    ∀ t ∈ lines lib (bucket lib d n b), pyChar '\n' ∉ t := by
  intro t ht
  obtain ⟨⟨k, e⟩, hp, rfl⟩ := List.mem_map.1 ht
  obtain ⟨hk, ho⟩ := hd k e (mem_bucket.1 hp).1
  have hflag := unseparated_formatBool (e.deleted.getD false)
  intro hmem
  rw [line, List.append_assoc _ e.origin, List.append_assoc _ (e.origin ++ pyStr ['|'])] at hmem
  cases List.mem_append.1 hmem with
  | inl hmem =>
    cases List.mem_append.1 hmem with
    | inl hmem => exact hk.append (hformat e.ts) hmem
    | inr hmem => exact absurd hmem (by decide)
  | inr hmem => exact ho.append hflag hmem

theorem rows_subset_of_lines {lib : HashLib T} (hinj : Function.Injective lib.format)
    (hformat : ∀ ts, Unseparated (lib.format ts)) {d d' : Entries T α}
    (hd : UnseparatedDigest d) (hd' : UnseparatedDigest d')
    (hperm : (lines lib (bucket lib d n b)).Perm (lines lib (bucket lib d' n b))) :
    ∀ r ∈ rows lib d n b, r ∈ rows lib d' n b := by
  intro r hr
  rw [lines_eq, lines_eq] at hperm
  obtain ⟨r', hr', hline⟩ := List.mem_map.1 (hperm.mem_iff.1 (List.mem_map_of_mem hr))
  obtain ⟨hk, ho⟩ := unseparated_row hd hr
  obtain ⟨hk', ho'⟩ := unseparated_row hd' hr'
  have hsame : r' = r := eq_of_line hinj hformat hk' hk ho' ho hline
  rw [← hsame]
  exact hr'

theorem unambiguous_of_unseparated {lib : HashLib T} (hinj : Function.Injective lib.format)
    (hformat : ∀ ts, Unseparated (lib.format ts)) {d d' : Entries T α}
    (hd : UnseparatedDigest d) (hd' : UnseparatedDigest d') (n : ℤ) : Unambiguous lib d d' n := by
  intro b htext r
  by_cases hnil : bucket lib d n b = []
  · rw [rows, rows, hnil, bucket_eq_nil_of_joined htext hnil]
  · have hnil' : bucket lib d' n b ≠ [] :=
      fun h => hnil (bucket_eq_nil_of_joined htext.symm h)
    have hperm := perm_of_joined (newline_notMem_lines hformat hd)
      (newline_notMem_lines hformat hd') (fun h => hnil (List.map_eq_nil_iff.1 h))
      (fun h => hnil' (List.map_eq_nil_iff.1 h)) htext
    exact ⟨rows_subset_of_lines hinj hformat hd hd' hperm r,
      rows_subset_of_lines hinj hformat hd' hd hperm.symm r⟩

end AntiEntropy

/-- What `str` of a timestamp is relied on for: different timestamps have different texts, and no
text has a separator or a surrogate. -/
structure HashLib.TellsTimes {T : Type} (lib : HashLib T) : Prop where
  injective : Function.Injective lib.format
  unseparated : ∀ ts, AntiEntropy.Unseparated (lib.format ts)
  plain : ∀ ts, PlainText (lib.format ts)

open AntiEntropy in
/-- Without collisions of SHA-256 the diff of two digests is exact if and only if their keys and
origins can be encoded and no bucket has the same text for different rows, as is the case when no
key and no origin has a separator in it. -/
theorem fingerprints_detect_iff {T α : Type} [LinearOrder T] [PyNone α] {lib : HashLib T}
    (hlib : lib.TellsTimes) {d d' : Entries T α} (hn : 1 ≤ n) (hsha : NoCollision lib d d' n) :
    (Detects lib d d' n ↔ (Encodable d ∧ Encodable d') ∧ Unambiguous lib d d' n) ∧
      (UnseparatedDigest d → UnseparatedDigest d' → Unambiguous lib d d' n) := by
  refine ⟨detects_iff hsha hlib.plain hn, ?_⟩
  intro hd hd'
  exact unambiguous_of_unseparated hlib.injective hlib.unseparated hd hd' n

namespace AntiEntropy

/-- Whole numbers of seconds, and a hash without collisions. -/
def wholeSeconds : HashLib ℕ := ⟨id, fun k => pyStr (Nat.toDigits 10 k ++ ['.', '0'])⟩

theorem mem_format_wholeSeconds (h : c ∈ wholeSeconds.format k) :
    ∃ x : Char, (x.isDigit = true ∨ x = '.') ∧ c = pyChar x := by
  obtain ⟨x, hx, rfl⟩ := List.mem_map.1 h
  refine ⟨x, ?_, rfl⟩
  cases List.mem_append.1 hx with
  | inl hx => exact .inl (Nat.isDigit_of_mem_toDigits (by decide) (by decide) hx)
  | inr hx =>
    cases List.mem_cons.1 hx with
    | inl hx => exact .inr hx
    | inr hx =>
      rw [List.mem_singleton.1 hx]
      exact .inl (by decide)

theorem tellsTimes_wholeSeconds : wholeSeconds.TellsTimes where
  injective := by
    intro a b h
    exact toDigits_injective (List.append_cancel_right (pyChar_injective.list_map h))
  unseparated ts := by
    constructor
    · intro h
      obtain ⟨x, hx, he⟩ := mem_format_wholeSeconds h
      rw [← pyChar_injective he] at hx
      exact absurd hx (by decide)
    · intro h
      obtain ⟨x, hx, he⟩ := mem_format_wholeSeconds h
      rw [← pyChar_injective he] at hx
      exact absurd hx (by decide)
  plain ts := plainText_pyStr _

def oneKey (key origin : Text) : Entries ℕ (Option ℕ) :=
  Dict.empty.set (pyStr key) ⟨none, 1, pyStr origin, some false⟩

theorem bucket_oneKey {lib : HashLib ℕ} {key origin : Text} {b : ℤ}
    (h : bucketOf lib (pyStr key) n = some b) : bucket lib (oneKey key origin) n b =
      [(pyStr key, ⟨none, 1, pyStr origin, some false⟩)] := by
  have hitems : (oneKey key origin).items =
      [(pyStr key, ⟨none, 1, pyStr origin, some false⟩)] := rfl
  have hp : decide (bucketOf lib (pyStr key) n = some b) = true := decide_eq_true h
  simp only [bucket, hitems, List.filter_cons, hp, if_true, List.filter_nil]

theorem bucketOf_one (lib : HashLib ℕ) (key : Text) : bucketOf lib (pyStr key) 1 = some 0 := by
  obtain ⟨b, hb⟩ := (plainText_pyStr key).encode
  have hmod : ∀ x : ℤ, x.fmod 1 = 0 := Int.fmod_one
  simp only [bucketOf, hb, Option.bind_eq_bind, Option.bind_some, hmod]
  rfl

/-- A bar in a key looks like the end of the key. -/
theorem separators_hide_difference :
    ¬ ∀ lib : HashLib ℕ, lib.TellsTimes → ∀ (n : ℤ) (d d' : Entries ℕ (Option ℕ)), 1 ≤ n →
      NoCollision lib d d' n → Detects lib d d' n := by
  intro hall
  have hdetects := hall wholeSeconds tellsTimes_wholeSeconds 1
    (oneKey ['a', '|', '1', '.', '0', '|', 'b'] ['c'])
    (oneKey ['a'] ['b', '|', '1', '.', '0', '|', 'c']) le_rfl (fun _ _ _ _ _ h => h)
  have hunambiguous := ((fingerprints_detect_iff tellsTimes_wholeSeconds le_rfl
    (fun _ _ _ _ _ h => h)).1.1 hdetects).2 0
  rw [rows, rows, bucket_oneKey (bucketOf_one _ _), bucket_oneKey (bucketOf_one _ _)]
    at hunambiguous
  have hrow := (hunambiguous (by decide) _).1 List.mem_cons_self
  exact absurd hrow (by decide)

/-- Three keys, set by three nodes, the last of them at the given time. -/
def threeKeys (time : ℕ) : Entries ℕ (Option ℕ) :=
  ((Dict.empty.set (pyStr ['a']) ⟨some none, 1, pyStr ['x'], some true⟩).set
    (pyStr ['b']) ⟨some (some 5), 2, pyStr ['y'], some false⟩).set
    (pyStr ['c']) ⟨some (some 7), time, pyStr ['z'], none⟩

theorem mem_threeKeys {time : ℕ} (h : (threeKeys time).get k = some e) :
    (k = pyStr ['a'] ∧ e.origin = pyStr ['x']) ∨ (k = pyStr ['b'] ∧ e.origin = pyStr ['y']) ∨
      (k = pyStr ['c'] ∧ e.origin = pyStr ['z']) := by
  simp only [threeKeys, Dict.get_set] at h
  split_ifs at h with hc hb ha
  · cases h
    exact .inr (.inr ⟨hc, rfl⟩)
  · cases h
    exact .inr (.inl ⟨hb, rfl⟩)
  · cases h
    exact .inl ⟨ha, rfl⟩
  · cases h

theorem unseparated_letter (h : c ≠ '|' ∧ c ≠ '\n') : Unseparated (pyStr [c]) := by
  constructor
  · intro hmem
    exact h.1 (pyChar_injective (List.mem_singleton.1 hmem)).symm
  · intro hmem
    exact h.2 (pyChar_injective (List.mem_singleton.1 hmem)).symm

/-- Two of the keys share a bucket, which differs in one of its rows. -/
theorem fingerprints_detect_iff_threeKeys :
    Detects wholeSeconds (threeKeys 3) (threeKeys 4) 2 ∧
      (bucket wholeSeconds (threeKeys 3) 2 1).length = 2 ∧
      ¬ ∀ r, r ∈ rows wholeSeconds (threeKeys 3) 2 1 ↔ r ∈ rows wholeSeconds (threeKeys 4) 2 1 := by
  have hsha : NoCollision wholeSeconds (threeKeys 3) (threeKeys 4) 2 :=
    fun _ _ _ _ _ h => h
  have hboth := fingerprints_detect_iff tellsTimes_wholeSeconds (by decide) hsha
  have hencodable : ∀ time, Encodable (threeKeys time) := by
    intro time k e h
    rcases mem_threeKeys h with ⟨hk, ho⟩ | ⟨hk, ho⟩ | ⟨hk, ho⟩ <;> rw [hk, ho] <;>
      exact ⟨plainText_pyStr _, plainText_pyStr _⟩
  have hunseparated : ∀ time, UnseparatedDigest (threeKeys time) := by
    intro time k e h
    rcases mem_threeKeys h with ⟨hk, ho⟩ | ⟨hk, ho⟩ | ⟨hk, ho⟩ <;> rw [hk, ho] <;>
      exact ⟨unseparated_letter (by decide), unseparated_letter (by decide)⟩
  refine ⟨hboth.1.2 ⟨⟨hencodable _, hencodable _⟩, hboth.2 (hunseparated _) (hunseparated _)⟩,
    by decide, ?_⟩
  intro hsame
  exact absurd ((hsame (pyStr ['c'], 3, pyStr ['z'], false)).1 (by decide)) (by decide)

end AntiEntropy

end Suprime
