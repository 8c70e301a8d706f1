import Suprime.AntiEntropy

namespace Suprime
set_option autoImplicit true

def PlainText (s : PyStr) : Prop := ∀ c ∈ s, isSurrogate c = false

instance (s : PyStr) : Decidable (PlainText s) :=
  inferInstanceAs (Decidable (∀ c ∈ s, isSurrogate c = false))

theorem PlainText.append {s t : PyStr} (hs : PlainText s) (ht : PlainText t) :
    PlainText (s ++ t) := by
  intro c hc
  rcases List.mem_append.1 hc with hc | hc
  · exact hs c hc
  · exact ht c hc

theorem PlainText.flatten {l : List PyStr} (h : ∀ s ∈ l, PlainText s) : PlainText l.flatten := by
  intro c hc
  obtain ⟨s, hs, hc⟩ := List.mem_flatten.1 hc
  exact h s hs c hc

theorem PlainText.encode {s : PyStr} (h : PlainText s) : ∃ b, encode s = some b := by
  have hany : s.any isSurrogate = false := by
    rw [List.any_eq_false]
    intro c hc
    rw [h c hc]
    exact Bool.false_ne_true
  simp only [Suprime.encode, hany]
  exact ⟨_, rfl⟩

theorem plainText_pyStr (t : Text) : PlainText (pyStr t) := by
  intro c hc
  obtain ⟨x, _, rfl⟩ := List.mem_map.1 hc
  have hvalid := x.valid
  have hnat : x.val.toNat = x.toNat := rfl
  simp only [UInt32.isValidChar, Nat.isValidChar, hnat] at hvalid
  have hval : (pyChar x).val = x.toNat := Nat.mod_eq_of_lt (by omega)
  simp only [isSurrogate, isHigh, isLow, hval, Bool.or_eq_false_iff, Bool.and_eq_false_iff,
    decide_eq_false_iff_not]
  omega

theorem mem_intersperse {sep x : β} {l : List β} (h : x ∈ l.intersperse sep) : x = sep ∨ x ∈ l := by
  induction l with
  | nil => cases h
  | cons y l ih =>
    cases l with
    | nil => exact .inr h
    | cons z l =>
      rw [List.intersperse_cons_cons] at h
      rcases List.mem_cons.1 h with rfl | h
      · exact .inr List.mem_cons_self
      · rcases List.mem_cons.1 h with rfl | h
        · exact .inl rfl
        · exact (ih h).imp_right (List.mem_cons_of_mem _)

theorem plainText_of_encode {s : PyStr} (h : encode s = some b) : PlainText s := by
  rw [encode] at h
  split at h
  · cases h
  · rename_i hany
    intro c hc
    rw [Bool.not_eq_true, List.any_eq_false] at hany
    exact Bool.eq_false_iff.2 (hany c hc)

theorem mem_intersperse_of_mem {sep x : β} {l : List β} (h : x ∈ l) : x ∈ l.intersperse sep := by
  induction l with
  | nil => cases h
  | cons y l ih =>
    cases l with
    | nil => exact h
    | cons z l =>
      rw [List.intersperse_cons_cons]
      cases List.mem_cons.1 h with
      | inl h =>
        rw [h]
        exact List.mem_cons_self
      | inr h => exact List.mem_cons_of_mem _ (List.mem_cons_of_mem _ (ih h))

namespace AntiEntropy

variable {T : Type} {α : Type}

/-- The text of a bucket before it is hashed. -/
def joined (items : List PyStr) : PyStr :=
  List.intercalate (pyStr ['\n']) (items.insertionSort (· ≤ ·))

theorem fingerprint_eq (lib : HashLib T) (items : List PyStr) :
    fingerprint lib items = (encode (joined items)).map (fun b => hexdigest (lib.sha256 b)) := by
  rw [fingerprint, joined]
  cases encode (List.intercalate (pyStr ['\n']) (items.insertionSort (· ≤ ·))) <;> rfl

theorem mem_joined {items : List PyStr} (ht : t ∈ items) (hc : c ∈ t) : c ∈ joined items := by
  rw [joined, List.intercalate]
  exact List.mem_flatten.2 ⟨t, mem_intersperse_of_mem ((List.mem_insertionSort _).2 ht), hc⟩

theorem exists_bucketOf (lib : HashLib T) (hn : n ≠ 0) (hk : PlainText k) :
    ∃ b, bucketOf lib k n = some b := by
  obtain ⟨bytes, hb⟩ := hk.encode
  simp only [bucketOf, hb, Option.bind_eq_bind, Option.bind_some, if_neg hn]
  exact ⟨_, rfl⟩

theorem exists_foldlM_addLine (lib : HashLib T)
    {l : List (PyStr × EntryData T PyStr α)} (hl : ∀ p ∈ l, n ≠ 0 ∧ PlainText p.1)
    (d : Dict ℤ (List PyStr)) : ∃ r, l.foldlM (addLine lib n) d = some r := by
  induction l generalizing d with
  | nil => exact ⟨d, rfl⟩
  | cons p l ih =>
    obtain ⟨hn, hk⟩ := hl p List.mem_cons_self
    obtain ⟨b, hb⟩ := exists_bucketOf lib hn hk
    obtain ⟨r, hr⟩ := ih (fun q hq => hl q (List.mem_cons_of_mem _ hq))
      (d.set b ((d.get b).getD [] ++ [line lib p.1 p.2]))
    refine ⟨r, ?_⟩
    rw [List.foldlM_cons, addLine, hb]
    exact hr

theorem plainText_formatBool (b : Bool) : PlainText (formatBool b) := by
  cases b with
  | false => exact plainText_pyStr _
  | true => exact plainText_pyStr _

theorem plainText_line {lib : HashLib T} {e : EntryData T PyStr α} (hk : PlainText k)
    (hts : PlainText (lib.format e.ts)) (ho : PlainText e.origin) :
    PlainText (line lib k e) := by
  have hbar := plainText_pyStr ['|']
  exact (((((hk.append hbar).append hts).append hbar).append ho).append hbar).append
    (plainText_formatBool _)

theorem exists_fingerprint_of_plain {lib : HashLib T} {l : List PyStr}
    (h : ∀ s ∈ l, PlainText s) : ∃ f, fingerprint lib l = some f := by
  have hjoin : PlainText (List.intercalate (pyStr ['\n']) (l.insertionSort (· ≤ ·))) := by
    apply PlainText.flatten
    intro s hs
    rcases mem_intersperse hs with rfl | hs
    · exact plainText_pyStr _
    · exact h s ((List.mem_insertionSort _).1 hs)
  obtain ⟨bytes, hb⟩ := hjoin.encode
  simp only [fingerprint, hb, Option.bind_eq_bind, Option.bind_some]
  exact ⟨_, rfl⟩

/-- `bucket_hashes` of the digest does not raise: there are buckets and no text has a surrogate,
unless the digest is empty. -/
def CanHash (lib : HashLib T) (d : Entries T α) (n : ℤ) : Prop :=
  ∀ k x, d.get k = some x →
    n ≠ 0 ∧ PlainText k ∧ PlainText (lib.format x.ts) ∧ PlainText x.origin

theorem CanHash.exists_bucketHashes {lib : HashLib T} {d : Entries T α} (h : CanHash lib d n) :
    ∃ r, bucketHashes lib d n = some r := by
  have hget : ∀ p ∈ d.items, _ := fun p hp => h p.1 p.2 (Dict.mem_items.1 hp)
  obtain ⟨buckets, hb⟩ := exists_foldlM_addLine lib (l := d.items)
    (fun p hp => ⟨(hget p hp).1, (hget p hp).2.1⟩) .empty
  have hf : ∀ b items, buckets.get b = some items → ∃ f, fingerprint lib items = some f := by
    intro b items hitems
    rw [get_foldlM_addLine hb] at hitems
    split at hitems
    · cases hitems
    · cases hitems
      apply exists_fingerprint_of_plain
      intro t ht
      obtain ⟨p, hp, rfl⟩ := List.mem_map.1 ht
      obtain ⟨-, hk, hts, ho⟩ := hget p (List.mem_filter.1 hp).1
      exact plainText_line hk hts ho
  obtain ⟨r, hr⟩ := Dict.exists_mapM hf
  refine ⟨r, ?_⟩
  rw [AntiEntropy.bucketHashes, hb]
  exact hr

theorem CanHash.of_bucketHashes {lib : HashLib T} {d : Entries T α} {r : Dict ℤ PyStr}
    (h : bucketHashes lib d n = some r) : CanHash lib d n := by
  intro k e hk
  obtain ⟨b, hb⟩ := bucketOf_of_bucketHashes h hk
  obtain ⟨f, hf⟩ := exists_fingerprint h (bucket_ne_nil hk hb)
  rw [fingerprint_eq] at hf
  obtain ⟨bytes, hbytes, -⟩ := Option.map_eq_some_iff.1 hf
  have hline : line lib k e ∈ lines lib (bucket lib d n b) :=
    List.mem_map.2 ⟨(k, e), mem_bucket.2 ⟨hk, hb⟩, rfl⟩
  have hplain : ∀ c ∈ line lib k e, isSurrogate c = false :=
    fun c hc => plainText_of_encode hbytes c (mem_joined hline hc)
  obtain ⟨keyBytes, hkey, hb⟩ := Option.bind_eq_some_iff.1 hb
  refine ⟨?_, plainText_of_encode hkey, fun c hc => hplain c ?_, fun c hc => hplain c ?_⟩
  · rintro rfl
    cases hb
  · rw [line]
    simp only [List.mem_append]
    tauto
  · rw [line]
    simp only [List.mem_append]
    tauto

theorem bucketHashes_eq_none {lib : HashLib T} {d : Entries T α} (h : ¬ CanHash lib d n) :
    bucketHashes lib d n = none := by
  cases hr : bucketHashes lib d n with
  | none => rfl
  | some r => exact absurd (.of_bucketHashes hr) h

/-- `entries_for_buckets` raises only for a key that cannot be put into a bucket. -/
theorem exists_entriesForBuckets (lib : HashLib T) {d : Entries T α}
    (h : ∀ k x, d.get k = some x → n ≠ 0 ∧ PlainText k) (buckets : Finset ℤ) :
    ∃ r, entriesForBuckets lib d buckets n = some r := by
  have hall : d.keys.all (fun key => (bucketOf lib key n).isSome) = true := by
    rw [List.all_eq_true]
    intro k hk
    obtain ⟨x, hx⟩ := Dict.mem_keys.1 hk
    obtain ⟨hn, hk⟩ := h k x hx
    obtain ⟨b, hb⟩ := exists_bucketOf lib hn hk
    rw [hb]
    rfl
  rw [entriesForBuckets, if_pos hall]
  exact ⟨_, rfl⟩

end AntiEntropy

end Suprime
