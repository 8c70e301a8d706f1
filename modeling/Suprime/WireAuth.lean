import Suprime.JsonNative
import Suprime.ReprInjective
import Suprime.SecureTransport

namespace Suprime
set_option autoImplicit true

section
variable [DecidableEq κ]

theorem filter_assocSet_self (k : κ) (v : α) (l : List (κ × α)) :
    (assocSet k v l).filter (fun p => p.1 ≠ k) = l.filter (fun p => p.1 ≠ k) := by
  induction l with
  | nil => simp [assocSet]
  | cons p l ih =>
    obtain ⟨a, b⟩ := p
    by_cases ha : a = k
    · simp [assocSet, ha]
    · simp only [assocSet, if_neg ha, List.filter_cons, ih]

theorem filter_assocSet_ne {k k' : κ} (h : k ≠ k') (v : α) (l : List (κ × α)) :
    (assocSet k v l).filter (fun p => p.1 ≠ k') = assocSet k v (l.filter (fun p => p.1 ≠ k')) := by
  induction l with
  | nil => simp [assocSet, h]
  | cons p l ih =>
    obtain ⟨a, b⟩ := p
    by_cases ha : a = k
    · subst ha
      simp [assocSet, h]
    · by_cases hb : a = k'
      · subst hb
        simp only [assocSet, if_neg ha, List.filter_cons, ih]
        simp
      · simp only [assocSet, if_neg ha, List.filter_cons, ih]
        simp [hb, assocSet, ha]

theorem filter_ofPairs (k : κ) (l : List (κ × α)) :
    (ofPairs l).filter (fun p => p.1 ≠ k) = ofPairs (l.filter (fun p => p.1 ≠ k)) := by
  induction l using List.reverseRecOn with
  | nil => rfl
  | append_singleton l p ih =>
    rw [ofPairs_concat, List.filter_append]
    by_cases hp : p.1 = k
    · subst hp
      rw [filter_assocSet_self, ih]
      simp
    · rw [filter_assocSet_ne hp, ih]
      simp [hp, ofPairs_concat]

theorem lookup_ofPairs {k : κ} {v : α} {l : List (κ × α)} (h : (k, v) ∈ l)
    (hall : ∀ w, (k, w) ∈ l → w = v) : (ofPairs l).lookup k = some v := by
  induction l using List.reverseRecOn with
  | nil => cases h
  | append_singleton l p ih =>
    rw [ofPairs_concat, lookup_assocSet]
    by_cases hk : k = p.1
    · rw [if_pos hk, hall p.2]
      rw [hk]
      exact List.mem_append_right _ (List.mem_singleton_self p)
    · rw [if_neg hk]
      have hl : (k, v) ∈ l := by
        rcases List.mem_append.1 h with hl | hp
        · exact hl
        · rw [List.mem_singleton] at hp
          exact absurd (congrArg Prod.fst hp) hk
      exact ih hl (fun w hw => hall w (List.mem_append_left _ hw))

theorem mem_of_lookup_ofPairs {k : κ} {v : α} {l : List (κ × α)}
    (h : (ofPairs l).lookup k = some v) : (k, v) ∈ l := by
  induction l using List.reverseRecOn with
  | nil => cases h
  | append_singleton l p ih =>
    rw [ofPairs_concat, lookup_assocSet] at h
    by_cases hk : k = p.1
    · rw [if_pos hk, Option.some.injEq] at h
      rw [hk, ← h]
      exact List.mem_append_right _ (List.mem_singleton_self p)
    · rw [if_neg hk] at h
      exact List.mem_append_left _ (ih h)

theorem mem_assocSet_self {k : κ} {v w : α} {l : List (κ × α)} (hl : (l.map Prod.fst).Nodup) :
    (k, w) ∈ assocSet k v l ↔ w = v := by
  rw [mem_iff_lookup (nodup_assocSet hl), lookup_assocSet, if_pos rfl, Option.some.injEq, eq_comm]

theorem mem_assocSet_ne {k k' : κ} {v w : α} {l : List (κ × α)} (hl : (l.map Prod.fst).Nodup)
    (h : k' ≠ k) : (k', w) ∈ assocSet k v l ↔ (k', w) ∈ l := by
  rw [mem_iff_lookup (nodup_assocSet hl), lookup_assocSet, if_neg h, mem_iff_lookup hl]

end

/-- A name that no other key becomes in JSON. -/
structure FieldName (s : PyStr) : Prop where
  low : ∀ c ∈ s, c.val < 55296
  head : s.head? = some 95

theorem low_of_all {s : PyStr} (h : s.all (fun c => c.val < 55296) = true) :
    ∀ c ∈ s, c.val < 55296 :=
  fun c hc => of_decide_eq_true (List.all_eq_true.1 h c hc)

theorem sigField_fieldName : FieldName sigField := ⟨low_of_all (by decide), by decide⟩

theorem pkField_fieldName : FieldName pkField := ⟨low_of_all (by decide), by decide⟩

theorem eq_of_viaJsonStr {s t : PyStr} (hs : ∀ c ∈ s, c.val < 55296) (h : viaJsonStr t = s) :
    t = s := by
  subst h
  induction t using joinUnits.induct with
  | case1 => rfl
  | case2 c => exact (viaJsonStr_singleton c).symm
  | case3 c d t hp ih =>
    rw [viaJsonStr_cons_cons, if_pos hp] at hs
    have hlt := hs _ List.mem_cons_self
    have hbound : 65536 + (c.val - 55296) * 1024 + (d.val - 56320) < 1114112 := by
      simp only [isHigh, isLow, Bool.and_eq_true, decide_eq_true_eq] at hp
      omega
    have hval : (joinPair c d).val = 65536 + (c.val - 55296) * 1024 + (d.val - 56320) :=
      Nat.mod_eq_of_lt hbound
    omega
  | case4 c d t hp ih =>
    rw [viaJsonStr_cons_cons, if_neg hp] at hs ⊢
    rw [← ih (fun x hx => hs x (List.mem_cons_of_mem _ hx))]

theorem plain_of_low {s : PyStr} (hs : ∀ c ∈ s, c.val < 55296) : plain s = true := by
  induction s using joinUnits.induct with
  | case1 => rfl
  | case2 c => rfl
  | case3 c d t hp ih =>
    have hc := hs c List.mem_cons_self
    simp only [isHigh, isLow, Bool.and_eq_true, decide_eq_true_eq] at hp
    omega
  | case4 c d t hp ih =>
    rw [plain, ih (fun x hx => hs x (List.mem_cons_of_mem _ hx))]
    simp [hp]

section
variable [FiniteFloat F]

theorem head_pyStr_number (l : NumberLit) : (pyStr l.text).head? ≠ some 95 := by
  obtain ⟨c, t, ht, hc⟩ := l.head_text
  rw [ht]
  intro h
  have hpy : pyChar c = 95 := Option.some.inj h
  have hcode : c.toNat % 1114112 = 95 := congrArg Fin.val hpy
  have hlt : c.toNat < 1114112 := by
    have hvalid := c.valid
    change c.val.toNat < 1114112
    rcases hvalid with hv | ⟨_, hv⟩
    · exact lt_trans hv (by decide)
    · exact hv
  rw [Nat.mod_eq_of_lt hlt] at hcode
  have hchar : c = '_' := by
    rw [← Char.ofNat_toNat c, hcode]
  subst hchar
  rcases hc with hc | hc
  · exact absurd hc (by decide)
  · exact absurd hc (by decide)

theorem head_pyStr_ne {c : Char} (hc : pyChar c ≠ 95) (t : Text) :
    (pyStr (c :: t)).head? ≠ some 95 :=
  fun h => hc (Option.some.inj h)

theorem FieldName.eq_of_key {s : PyStr} (hs : FieldName s) {k : PyKey F}
    (h : viaJsonStr (keyStr k) = s) : k = .str s := by
  have hk := eq_of_viaJsonStr hs.low h
  have hhead := hs.head
  rw [← hk] at hhead
  cases k with
  | none => exact absurd hhead (head_pyStr_ne (by decide) _)
  | bool b =>
    cases b with
    | true => exact absurd hhead (head_pyStr_ne (by decide) _)
    | false => exact absurd hhead (head_pyStr_ne (by decide) _)
  | int i => exact absurd hhead (head_pyStr_number _)
  | float f =>
    cases f with
    | finite f => exact absurd hhead (head_pyStr_number _)
    | inf b =>
      cases b with
      | true => exact absurd hhead (head_pyStr_ne (by decide) _)
      | false => exact absurd hhead (head_pyStr_ne (by decide) _)
    | nan => exact absurd hhead (head_pyStr_ne (by decide) _)
  | str t => rw [show t = s from hk]

variable [DecidableEq F]

theorem viaJsonItems_eq_map (l : List (PyKey F × PyValue F)) :
    viaJsonItems l = l.map (fun p => (.str (viaJsonStr (keyStr p.1)), viaJson p.2)) := by
  induction l with
  | nil => rfl
  | cons p l ih => rw [viaJsonItems, ih, List.map_cons]

section
omit [DecidableEq F]

theorem FieldName.key_ne_iff {s : PyStr} (hs : FieldName s) (k : PyKey F) :
    (PyKey.str (viaJsonStr (keyStr k)) : PyKey F) ≠ .str s ↔ k ≠ .str s := by
  apply not_congr
  constructor
  · intro h
    exact hs.eq_of_key (PyKey.str.inj h)
  · intro h
    subst h
    rw [keyStr, (viaJsonStr_eq_self_iff s).2 (plain_of_low hs.low)]

end

theorem FieldName.without_viaJsonItems {s : PyStr} (hs : FieldName s)
    (l : List (PyKey F × PyValue F)) : without s (viaJsonItems l) = viaJsonItems (without s l) := by
  rw [viaJsonItems_eq_map, viaJsonItems_eq_map, without, without, List.filter_map]
  congr 1
  apply List.filter_congr
  intro p _
  simp only [Function.comp_apply, decide_eq_decide]
  exact hs.key_ne_iff p.1

theorem FieldName.without_viaJson {s : PyStr} (hs : FieldName s)
    (l : List (PyKey F × PyValue F)) :
    without s (ofPairs (viaJsonItems l)) = ofPairs (viaJsonItems (without s l)) := by
  rw [← hs.without_viaJsonItems, without, filter_ofPairs]
  rfl

theorem FieldName.lookup_viaJson {s : PyStr} (hs : FieldName s) {v : PyValue F}
    {l : List (PyKey F × PyValue F)} (h : ∀ w, (PyKey.str s, w) ∈ l ↔ w = v) :
    (ofPairs (viaJsonItems l)).lookup (.str s) = some (viaJson v) := by
  rw [viaJsonItems_eq_map]
  apply lookup_ofPairs
  · refine List.mem_map.2 ⟨(.str s, v), (h v).2 rfl, ?_⟩
    rw [keyStr, (viaJsonStr_eq_self_iff s).2 (plain_of_low hs.low)]
  · intro w hw
    obtain ⟨p, hp, he⟩ := List.mem_map.1 hw
    obtain ⟨hk, rfl⟩ := Prod.mk.inj he
    have hkey := hs.eq_of_key (PyKey.str.inj hk)
    have hmem : (PyKey.str s, p.2) ∈ l := by
      rw [← hkey]
      exact hp
    rw [(h p.2).1 hmem]

/-- A dict without the field `s`, through JSON, is `l` exactly when `l` is native and does not
have the field. -/
theorem FieldName.viaJson_without_eq_iff {s : PyStr} (hs : FieldName s)
    (l : List (PyKey F × PyValue F)) :
    viaJson (.dict (without s l)) = .dict l ↔
      native (.dict l) = true ∧ PyKey.str s ∉ l.map Prod.fst := by
  have hself : PyKey.str s ∉ l.map Prod.fst → without s l = l := by
    intro hn
    apply List.filter_eq_self.2
    intro p hp
    rw [decide_eq_true_eq]
    rintro hk
    exact hn (hk ▸ List.mem_map_of_mem hp)
  constructor
  · intro h
    have hn : PyKey.str s ∉ l.map Prod.fst := by
      rw [viaJson, PyValue.dict.injEq, ← hs.without_viaJson] at h
      rw [← h]
      intro hm
      obtain ⟨p, hp, hk⟩ := List.mem_map.1 hm
      exact of_decide_eq_true (List.mem_filter.1 hp).2 hk
    rw [hself hn] at h
    exact ⟨(viaJson_eq_self_iff _).1 h, hn⟩
  · rintro ⟨h, hn⟩
    rw [hself hn]
    exact (viaJson_eq_self_iff _).2 h

section
omit [FiniteFloat F]

theorem without_without (s t : PyStr) (l : List (PyKey F × PyValue F)) :
    without s (without t l) = without t (without s l) := by
  simp only [without, List.filter_filter, Bool.and_comm]

theorem without_idem (s : PyStr) (l : List (PyKey F × PyValue F)) :
    without s (without s l) = without s l := by
  simp only [without, List.filter_filter, Bool.and_self]

end

end

section
variable [DecidableEq F] [RationalFloat F]

theorem number_mem_dictSet {k : PyKey F} {v : PyValue F} {l : List (PyKey F × PyValue F)}
    (h : n ∈ (dictSet k v l).map (fun p => p.1.number)) :
    n = k.number ∨ n ∈ l.map (fun p => p.1.number) := by
  induction l with
  | nil => exact .inl (List.mem_singleton.1 h)
  | cons p l ih =>
    obtain ⟨a, b⟩ := p
    by_cases ha : a.number = k.number
    · rw [dictSet, if_pos ha] at h
      exact .inr h
    · rw [dictSet, if_neg ha] at h
      rcases List.mem_cons.1 h with rfl | h
      · exact .inr List.mem_cons_self
      · exact (ih h).imp_right (List.mem_cons_of_mem _)

theorem nodup_dictSet {k : PyKey F} {v : PyValue F} {l : List (PyKey F × PyValue F)}
    (h : (l.map (fun p => p.1.number)).Nodup) :
    ((dictSet k v l).map (fun p => p.1.number)).Nodup := by
  induction l with
  | nil => exact List.nodup_singleton _
  | cons p l ih =>
    obtain ⟨a, b⟩ := p
    rw [List.map_cons, List.nodup_cons] at h
    by_cases ha : a.number = k.number
    · rw [dictSet, if_pos ha, List.map_cons, List.nodup_cons]
      exact h
    · rw [dictSet, if_neg ha, List.map_cons, List.nodup_cons]
      refine ⟨?_, ih h.2⟩
      intro hm
      rcases number_mem_dictSet hm with he | hl
      · exact ha he
      · exact h.1 hl

theorem dictSet_of_not_mem {k : PyKey F} {v : PyValue F} {l : List (PyKey F × PyValue F)}
    (h : k.number ∉ l.map (fun p => p.1.number)) : dictSet k v l = l ++ [(k, v)] := by
  induction l with
  | nil => rfl
  | cons p l ih =>
    obtain ⟨a, b⟩ := p
    rw [List.map_cons, List.mem_cons, not_or] at h
    rw [dictSet, if_neg (Ne.symm h.1), ih h.2, List.cons_append]

theorem dictFrom_concat (l : List (PyKey F × PyValue F)) (p : PyKey F × PyValue F) :
    dictFrom (l ++ [p]) = dictSet p.1 p.2 (dictFrom l) := by
  simp [dictFrom]

theorem nodup_dictFrom (l : List (PyKey F × PyValue F)) :
    ((dictFrom l).map (fun p => p.1.number)).Nodup := by
  induction l using List.reverseRecOn with
  | nil => exact List.nodup_nil
  | append_singleton l p ih =>
    rw [dictFrom_concat]
    exact nodup_dictSet ih

theorem dictFrom_eq_self {l : List (PyKey F × PyValue F)}
    (h : (l.map (fun p => p.1.number)).Nodup) : dictFrom l = l := by
  induction l using List.reverseRecOn with
  | nil => rfl
  | append_singleton l p ih =>
    rw [List.map_append] at h
    obtain ⟨hl, _, hd⟩ := List.nodup_append.1 h
    rw [dictFrom_concat, ih hl]
    apply dictSet_of_not_mem
    intro hp
    exact hd _ hp _ List.mem_cons_self rfl

theorem nodup_pyDict {v : PyValue F} {d : List (PyKey F × PyValue F)} (h : pyDict v = some d) :
    (d.map (fun p => p.1.number)).Nodup := by
  unfold pyDict at h
  split at h
  · cases h
    exact nodup_dictFrom _
  · obtain ⟨ps, _, rfl⟩ := Option.map_eq_some_iff.1 h
    exact nodup_dictFrom _
  · obtain ⟨ps, _, rfl⟩ := Option.map_eq_some_iff.1 h
    exact nodup_dictFrom _
  · cases h
    exact List.nodup_nil
  · cases h

section
omit [DecidableEq F]

theorem nodup_keys {d : List (PyKey F × PyValue F)}
    (h : (d.map (fun p => p.1.number)).Nodup) : (d.map Prod.fst).Nodup := by
  have hmap : d.map (fun p => p.1.number) = (d.map Prod.fst).map PyKey.number := by
    rw [List.map_map]
    rfl
  rw [hmap] at h
  exact h.of_map

theorem nodup_number_of_str {d : List (PyKey F × PyValue F)} (h : (d.map Prod.fst).Nodup)
    (hstr : ∀ p ∈ d, ∃ s, p.1 = .str s) : (d.map (fun p => p.1.number)).Nodup := by
  have hmap : d.map (fun p => p.1.number) = d.map Prod.fst := by
    apply List.map_congr_left
    intro p hp
    obtain ⟨s, hs⟩ := hstr p hp
    rw [hs]
    rfl
  rw [hmap]
  exact h

end

end

theorem hexDigits_two (n : ℕ) :
    hexDigits 2 n = [Nat.digitChar (n / 16 % 16), Nat.digitChar (n % 16)] := rfl

theorem digitChar_lt : ∀ d < 16, (pyChar (Nat.digitChar d)).val < 128 := by
  decide

theorem mem_hexByte (h : c ∈ hexByte x) : ∃ d < 16, c = Nat.digitChar d := by
  rw [hexByte, hexDigits_two] at h
  simp only [List.mem_cons, List.not_mem_nil, or_false] at h
  rcases h with rfl | rfl
  · exact ⟨_, Nat.mod_lt _ (by decide), rfl⟩
  · exact ⟨_, Nat.mod_lt _ (by decide), rfl⟩

theorem hexdigest_lt {b : Bytes} (h : c ∈ hexdigest b) : c.val < 128 := by
  obtain ⟨x, hx, rfl⟩ := List.mem_map.1 h
  obtain ⟨y, _, hy⟩ := List.mem_flatMap.1 hx
  obtain ⟨d, hd, rfl⟩ := mem_hexByte hy
  exact digitChar_lt d hd

theorem plain_hexdigest (b : Bytes) : plain (hexdigest b) = true :=
  plain_of_low (fun _ hc => lt_trans (hexdigest_lt hc) (by decide))

theorem hexVal_pyChar : ∀ d < 16,
    hexVal (Char.ofNat (pyChar (Nat.digitChar d)).val) = some d ∧
      SignedTransport.isHexSpace (pyChar (Nat.digitChar d)) = false := by
  decide

theorem hexdigest_cons (x : UInt8) (b : Bytes) :
    hexdigest (x :: b) = pyChar (Nat.digitChar (x.toNat / 16 % 16)) ::
      pyChar (Nat.digitChar (x.toNat % 16)) :: hexdigest b := rfl

theorem fromHex_hexdigest (b : Bytes) : SignedTransport.fromHex (hexdigest b) = some b := by
  induction b with
  | nil => rfl
  | cons x b ih =>
    have hx : x.toNat < 256 := x.toNat_lt
    obtain ⟨hhigh, hspace⟩ := hexVal_pyChar (x.toNat / 16 % 16) (Nat.mod_lt _ (by decide))
    obtain ⟨hlow, _⟩ := hexVal_pyChar (x.toNat % 16) (Nat.mod_lt _ (by decide))
    have hbyte : SignedTransport.fromHexByte (pyChar (Nat.digitChar (x.toNat / 16 % 16)))
        (pyChar (Nat.digitChar (x.toNat % 16))) = some x := by
      have hsum : x.toNat / 16 % 16 * 16 + x.toNat % 16 = x.toNat := by omega
      simp only [SignedTransport.fromHexByte, hhigh, hlow, Option.bind_eq_bind, Option.bind_some,
        hsum, UInt8.ofNat_toNat]
    rw [hexdigest_cons, SignedTransport.fromHex, if_neg (by rw [hspace]; exact Bool.noConfusion),
      hbyte, Option.bind_some, ih]
    rfl

theorem hexdigest_injective : Function.Injective hexdigest := by
  intro a b h
  have hread := congrArg SignedTransport.fromHex h
  rw [fromHex_hexdigest, fromHex_hexdigest] at hread
  exact Option.some.inj hread

section
variable [UnicodeData] [FiniteFloat F]

section
omit [FiniteFloat F] [UnicodeData]

theorem Message.sorted_toDict (m : Message F) :
    m.toDict.insertionSort (fun p q => p.1 ≤ q.1) =
      [(dstField, m.dst), (idField, m.id), (payloadField, m.payload), (srcField, m.src),
        (timeField, m.ts), (typeField, m.type)] := by
  rfl

end

theorem Message.eq_of_reprSorted {m m' : Message F}
    (h : reprSorted m.toDict = reprSorted m'.toDict) : m = m' := by
  have hrepr := repr_injective (encodeUtf8_injective h)
  rw [sorted_toDict, sorted_toDict] at hrepr
  simp only [List.map_cons, List.map_nil, PyValue.list.injEq, List.cons.injEq, PyValue.tuple.injEq,
    and_true, true_and] at hrepr
  obtain ⟨hdst, hid, hpayload, hsrc, hts, htype⟩ := hrepr
  cases m
  cases m'
  simp only [Message.mk.injEq]
  exact ⟨htype, hsrc, hpayload, hdst, hid, hts⟩

end

end Suprime
