import Suprime.WireAuth

namespace Suprime
set_option autoImplicit true

/-- One instance for all modules, since libraries bring others. -/
instance decidableEq_byteArray : DecidableEq ByteArray := ByteArray.instDecidableEq

/-- A digest that tells one text from all others. -/
def Hmac.marking (t : ByteArray) : Hmac where
  digest _ m := if m = t then List.replicate 32 0 else List.replicate 32 1
  size _ m := by
    split <;> rfl

/-- Signatures that tell one text from all others. -/
def Ed25519.marking (t : ByteArray) : Ed25519 where
  publickey _ := List.replicate 32 0
  sign _ _ m := if m = t then List.replicate 64 0 else List.replicate 64 1
  verify _ m s := s = if m = t then List.replicate 64 0 else List.replicate 64 1
  sha256 _ := List.replicate 32 0
  publickey_size _ := rfl
  sign_size _ _ m := by
    split <;> rfl
  verify_sign _ m := decide_eq_true rfl

section
variable [UnicodeData] [FiniteFloat F] [DecidableEq F]

/-- JSON keeps all fields but the payload. -/
structure Message.HeaderNative (m : Message F) : Prop where
  type : native m.type = true
  src : native m.src = true
  dst : native m.dst = true
  id : native m.id = true
  ts : native m.ts = true

section
omit [UnicodeData]

/-- A message with another payload comes out of JSON as the message itself exactly when its header
is native and its payload comes out as the message's. -/
theorem Message.viaJson_eq_iff (m : Message F) (v : PyValue F) :
    ({ m with payload := v } : Message F).viaJson = m ↔
      m.HeaderNative ∧ Suprime.viaJson v = m.payload := by
  obtain ⟨type, src, payload, dst, id, ts⟩ := m
  simp only [Message.viaJson, Message.mk.injEq]
  constructor
  · rintro ⟨htype, hsrc, hpayload, hdst, hid, hts⟩
    refine ⟨⟨?_, ?_, ?_, ?_, ?_⟩, hpayload⟩
    · exact (viaJson_eq_self_iff _).1 htype
    · exact (viaJson_eq_self_iff _).1 hsrc
    · exact (viaJson_eq_self_iff _).1 hdst
    · exact (viaJson_eq_self_iff _).1 hid
    · exact (viaJson_eq_self_iff _).1 hts
  · rintro ⟨⟨htype, hsrc, hdst, hid, hts⟩, hpayload⟩
    refine ⟨?_, ?_, hpayload, ?_, ?_, ?_⟩
    · exact (viaJson_eq_self_iff _).2 htype
    · exact (viaJson_eq_self_iff _).2 hsrc
    · exact (viaJson_eq_self_iff _).2 hdst
    · exact (viaJson_eq_self_iff _).2 hid
    · exact (viaJson_eq_self_iff _).2 hts

end

omit [UnicodeData] in
theorem Message.viaJson_eq_self {m : Message F} (hheader : m.HeaderNative)
    (hpayload : native m.payload = true) : m.viaJson = m := by
  obtain ⟨type, src, payload, dst, id, ts⟩ := m
  obtain ⟨htype, hsrc, hdst, hid, hts⟩ := hheader
  simp only [Message.viaJson, (viaJson_eq_self_iff _).2 htype, (viaJson_eq_self_iff _).2 hsrc,
    (viaJson_eq_self_iff _).2 hpayload, (viaJson_eq_self_iff _).2 hdst,
    (viaJson_eq_self_iff _).2 hid, (viaJson_eq_self_iff _).2 hts]

namespace SecureTransport

section
omit [DecidableEq F]

theorem sign_eq (h : Hmac) (key : Bytes) (m : Message F) :
    sign h key m = hexdigest (h.digest key (reprSorted m.toDict)) := rfl

theorem sign_marking_self (key : Bytes) (m : Message F) :
    sign (.marking (reprSorted m.toDict)) key m = hexdigest (List.replicate 32 0) := by
  rw [sign_eq, Hmac.marking]
  simp only [if_true]

theorem sign_marking_ne (key : Bytes) {m m' : Message F} (h : m' ≠ m) :
    sign (.marking (reprSorted m.toDict)) key m' = hexdigest (List.replicate 32 1) := by
  rw [sign_eq, Hmac.marking]
  simp only [if_neg (fun he => h (Message.eq_of_reprSorted he))]

theorem eq_of_sign {m m' : Message F} (h : ∀ hm key, sign hm key m = sign hm key m') : m = m' := by
  by_contra hne
  have hmark := h (.marking (reprSorted m'.toDict)) []
  rw [sign_marking_ne [] hne, sign_marking_self] at hmark
  exact absurd (hexdigest_injective hmark) (by decide)

end

theorem recv_of_tag (h : Hmac) (key : Bytes) {m : Message F} {l : List (PyKey F × PyValue F)}
    {s : PyStr} (hm : m.payload = .dict l) (hs : l.lookup (.str sigField) = some (.str s))
    (hascii : ∀ c ∈ s, c.val < 128) :
    recv h key m =
      if s = sign h key { m with payload := .dict (without sigField l) } then
        .handed { m with payload := .dict (without sigField l) } else .dropped := by
  have hall : s.all (fun c => c.val < 128) = true := by
    rw [List.all_eq_true]
    intro c hc
    exact decide_eq_true (hascii c hc)
  simp only [recv, hm, hs, compareDigest, if_pos hall]
  by_cases heq : s = sign h key { m with payload := .dict (without sigField l) }
  · rw [if_pos heq, decide_eq_true heq]
  · rw [if_neg heq, decide_eq_false heq]

variable [RationalFloat F]

/-- The message that the application gets, if it gets one. -/
def delivered (m : Message F) (d : List (PyKey F × PyValue F)) : Message F :=
  ({ m with payload := .dict (without sigField d) } : Message F).viaJson

/-- The receiver accepts exactly when the tag of what was signed is the tag of what arrived. -/
theorem transmit_eq {m : Message F} {d : List (PyKey F × PyValue F)}
    (hd : pyDict m.payload = some d) (h : Hmac) (key : Bytes) (newId now : PyValue F) :
    transmit h key newId now m =
      some (if sign h key { m with payload := .dict d } = sign h key (delivered m d) then
        .handed (delivered m d) else .dropped) := by
  have hnodup := nodup_keys (nodup_pyDict hd)
  have hlookup := sigField_fieldName.lookup_viaJson (F := F)
    (fun w => mem_assocSet_self (v := PyValue.str (sign h key { m with payload := .dict d }))
      (w := w) hnodup)
  have hsig : viaJson (.str (sign h key { m with payload := .dict d }) : PyValue F) =
      .str (sign h key { m with payload := .dict d }) := by
    rw [viaJson, sign_eq, (viaJsonStr_eq_self_iff _).2 (plain_hexdigest _)]
  have hrest : without sigField (ofPairs (viaJsonItems
      (assocSet (.str sigField) (.str (sign h key { m with payload := .dict d })) d))) =
      ofPairs (viaJsonItems (without sigField d)) := by
    rw [sigField_fieldName.without_viaJson, without, filter_assocSet_self]
    rfl
  rw [hsig] at hlookup
  rw [transmit, send, hd, Option.map_some, Option.bind_some, arrive, Message.fromBytes_toBytes,
    Option.map_some]
  have hrecv := recv_of_tag h key (m := Message.viaJson { m with
    payload := .dict (assocSet (.str sigField)
      (.str (sign h key { m with payload := .dict d })) d) })
    rfl hlookup (fun c hc => hexdigest_lt hc)
  rw [hrecv, hrest]
  rfl

/-- A message arrives under every digest exactly when the signed message is the delivered one. -/
theorem forall_transmit_iff (m : Message F) (newId now : PyValue F) :
    (∀ h key, ∃ r, transmit h key newId now m = some (.handed r)) ↔
      ∃ d, pyDict m.payload = some d ∧ delivered m d = { m with payload := .dict d } := by
  constructor
  · intro hall
    cases hd : pyDict m.payload with
    | none =>
      obtain ⟨r, hr⟩ := hall (.marking default) []
      rw [transmit, send, hd] at hr
      cases hr
    | some d =>
      refine ⟨d, rfl, (eq_of_sign ?_).symm⟩
      intro h key
      obtain ⟨r, hr⟩ := hall h key
      rw [transmit_eq hd] at hr
      by_contra hne
      rw [if_neg hne] at hr
      cases hr
  · rintro ⟨d, hd, heq⟩ h key
    refine ⟨delivered m d, ?_⟩
    rw [transmit_eq hd, if_pos (congrArg _ heq.symm)]

section
omit [UnicodeData] [RationalFloat F]

theorem delivered_eq_iff (m : Message F) (d : List (PyKey F × PyValue F)) :
    delivered m d = { m with payload := .dict d } ↔
      m.HeaderNative ∧ native (.dict d) = true ∧ PyKey.str sigField ∉ d.map Prod.fst := by
  have hiff := Message.viaJson_eq_iff { m with payload := .dict d } (.dict (without sigField d))
  rw [sigField_fieldName.viaJson_without_eq_iff] at hiff
  refine hiff.trans ⟨?_, ?_⟩
  · rintro ⟨⟨htype, hsrc, hdst, hid, hts⟩, hd⟩
    exact ⟨⟨htype, hsrc, hdst, hid, hts⟩, hd⟩
  · rintro ⟨⟨htype, hsrc, hdst, hid, hts⟩, hd⟩
    exact ⟨⟨htype, hsrc, hdst, hid, hts⟩, hd⟩

end

end SecureTransport

namespace SignedTransport

variable [RationalFloat F]

def unsigned (d : List (PyKey F × PyValue F)) : List (PyKey F × PyValue F) :=
  without pkField (without sigField d)

theorem canonical_dict {m : Message F} {d : List (PyKey F × PyValue F)} (hm : m.payload = .dict d)
    (hd : (d.map (fun p => p.1.number)).Nodup) :
    canonical m = some (reprSorted { m with payload := .dict (unsigned d) }.toDict) := by
  rw [canonical, hm, pyDict, dictFrom_eq_self hd, Option.map_some]
  rfl

section
omit [UnicodeData]

theorem nodup_parsed (l : List (PyKey F × PyValue F)) :
    ((ofPairs (viaJsonItems l)).map (fun p => p.1.number)).Nodup := by
  apply nodup_number_of_str (nodup_ofPairs _)
  intro p hp
  have hlookup := (mem_iff_lookup (nodup_ofPairs (viaJsonItems l))).1 hp
  have hmem := mem_of_lookup_ofPairs hlookup
  rw [viaJsonItems_eq_map] at hmem
  obtain ⟨q, _, hq⟩ := List.mem_map.1 hmem
  exact ⟨_, (congrArg Prod.fst hq).symm⟩

end

section
omit [UnicodeData] [RationalFloat F] [FiniteFloat F]

theorem unsigned_idem (d : List (PyKey F × PyValue F)) : unsigned (unsigned d) = unsigned d := by
  rw [unsigned, unsigned, without_without sigField pkField, without_idem, without_idem]

end

section
omit [UnicodeData] [FiniteFloat F]

theorem nodup_unsigned {d : List (PyKey F × PyValue F)}
    (hd : (d.map (fun p => p.1.number)).Nodup) :
    ((unsigned d).map (fun p => p.1.number)).Nodup :=
  ((List.filter_sublist.trans List.filter_sublist).map _).nodup hd

end

section
omit [UnicodeData] [DecidableEq F] [RationalFloat F]

theorem truthy_hexdigest {b : Bytes} (hb : b ≠ []) :
    truthy (.str (hexdigest b) : PyValue F) = true := by
  cases b with
  | nil => exact absurd rfl hb
  | cons x b => rfl

end

/-- A message with both fields and the right source is accepted exactly when the signature
verifies. -/
theorem recv_of_tags (c : Ed25519) {m : Message F} {l : List (PyKey F × PyValue F)}
    {sig pk : Bytes} (hm : m.payload = .dict l)
    (hsig : l.lookup (.str sigField) = some (.str (hexdigest sig)))
    (hpk : l.lookup (.str pkField) = some (.str (hexdigest pk))) (hsig_ne : sig ≠ [])
    (hpk_ne : pk ≠ []) (hsrc : m.src = .str (c.fingerprint pk))
    (hl : (l.map (fun p => p.1.number)).Nodup) :
    recv c m =
      if c.verify pk (reprSorted { m with payload := .dict (unsigned l) }.toDict) sig then
        .handed { m with payload := .dict (unsigned l) } else .dropped := by
  have htrue : (!((some (.str (hexdigest sig)) : Option (PyValue F)).any truthy &&
      (some (.str (hexdigest pk)) : Option (PyValue F)).any truthy)) = false := by
    rw [Option.any_some, Option.any_some, truthy_hexdigest hsig_ne, truthy_hexdigest hpk_ne]
    rfl
  have hfp : m.src.isStr (c.fingerprint pk) = true := by
    rw [hsrc]
    exact decide_eq_true rfl
  have hcanon := canonical_dict (m := { m with payload := .dict (unsigned l) }) rfl
    (nodup_unsigned hl)
  rw [unsigned_idem] at hcanon
  simp only [recv, hm, hsig, hpk, htrue, Bool.false_eq_true, if_false, fromHex_hexdigest, hfp,
    if_true]
  rw [unsigned] at hcanon
  rw [hcanon]
  rfl

/-- The message that the application gets, if it gets one. -/
def delivered (m : Message F) (d : List (PyKey F × PyValue F)) : Message F :=
  ({ m with payload := .dict (unsigned d) } : Message F).viaJson

section
omit [UnicodeData]

theorem plain_fingerprint (c : Ed25519) (pk : Bytes) : plain (c.fingerprint pk) = true :=
  plain_of_low (fun _ hc => lt_trans (hexdigest_lt (List.mem_of_mem_take hc)) (by decide))

theorem ne_nil_of_length {b : Bytes} {n : ℕ} (h : b.length = n + 1) : b ≠ [] := by
  intro he
  rw [he] at h
  cases h

end

def signedDict (sig pk : Bytes) (d : List (PyKey F × PyValue F)) : List (PyKey F × PyValue F) :=
  assocSet (.str pkField) (.str (hexdigest pk)) (assocSet (.str sigField) (.str (hexdigest sig)) d)

theorem send_eq {m : Message F} {d : List (PyKey F × PyValue F)} (hd : pyDict m.payload = some d)
    (c : Ed25519) (sk pk : Bytes) :
    send c sk pk m = some { m with payload := .dict (signedDict
      (c.sign sk pk (reprSorted { m with payload := .dict (unsigned d) }.toDict)) pk d) } := by
  have hcanon := canonical_dict (m := { m with payload := .dict d }) rfl (nodup_pyDict hd)
  simp only [send, hd, Option.bind_some, hcanon, Option.map_some]
  rfl

section
omit [UnicodeData] [RationalFloat F]

theorem viaJson_hexdigest (b : Bytes) :
    viaJson (.str (hexdigest b) : PyValue F) = .str (hexdigest b) := by
  rw [viaJson, (viaJsonStr_eq_self_iff _).2 (plain_hexdigest b)]

theorem lookup_sig_signedDict (sig pk : Bytes) {d : List (PyKey F × PyValue F)}
    (hd : (d.map Prod.fst).Nodup) :
    (ofPairs (viaJsonItems (signedDict sig pk d))).lookup (.str sigField) =
      some (.str (hexdigest sig)) := by
  rw [← viaJson_hexdigest sig]
  apply sigField_fieldName.lookup_viaJson
  intro w
  rw [signedDict,
    mem_assocSet_ne (nodup_assocSet hd) (fun h => absurd (PyKey.str.inj h) (by decide)),
    mem_assocSet_self hd]

theorem lookup_pk_signedDict (sig pk : Bytes) {d : List (PyKey F × PyValue F)}
    (hd : (d.map Prod.fst).Nodup) :
    (ofPairs (viaJsonItems (signedDict sig pk d))).lookup (.str pkField) =
      some (.str (hexdigest pk)) := by
  rw [← viaJson_hexdigest pk]
  apply pkField_fieldName.lookup_viaJson
  intro w
  rw [signedDict, mem_assocSet_self (nodup_assocSet hd)]

theorem unsigned_signedDict (sig pk : Bytes) (d : List (PyKey F × PyValue F)) :
    unsigned (ofPairs (viaJsonItems (signedDict sig pk d))) =
      ofPairs (viaJsonItems (unsigned d)) := by
  have hpk : without pkField (signedDict sig pk d) =
      without pkField (assocSet (.str sigField) (.str (hexdigest sig)) d) :=
    filter_assocSet_self _ _ _
  have hsig : without sigField (assocSet (.str sigField) (.str (hexdigest sig)) d) =
      without sigField d := filter_assocSet_self _ _ _
  rw [unsigned, sigField_fieldName.without_viaJson, pkField_fieldName.without_viaJson,
    without_without, hpk, without_without, hsig, unsigned]

end

/-- The receiver accepts exactly when the signature of what was signed verifies on what arrived. -/
theorem transmit_eq {m : Message F} {d : List (PyKey F × PyValue F)}
    (hd : pyDict m.payload = some d) (c : Ed25519) (sk : Bytes) (newId now : PyValue F)
    (hsrc : m.src = .str (c.fingerprint (c.publickey sk))) :
    transmit c sk (c.publickey sk) newId now m =
      some (if c.verify (c.publickey sk) (reprSorted (delivered m d).toDict)
          (c.sign sk (c.publickey sk) (reprSorted { m with payload := .dict (unsigned d) }.toDict))
        then .handed (delivered m d) else .dropped) := by
  have hnodup := nodup_keys (nodup_pyDict hd)
  have hsize := c.sign_size sk (c.publickey sk)
    (reprSorted { m with payload := .dict (unsigned d) }.toDict)
  rw [transmit, send_eq hd, Option.bind_some, Message.fromBytes_toBytes, Option.map_some]
  generalize c.sign sk (c.publickey sk)
    (reprSorted ({ m with payload := .dict (unsigned d) } : Message F).toDict) = sig at *
  have hsrc' : viaJson m.src = .str (c.fingerprint (c.publickey sk)) := by
    rw [hsrc, viaJson, (viaJsonStr_eq_self_iff _).2 (plain_fingerprint c _)]
  have hrecv := recv_of_tags c (m := Message.viaJson { m with
      payload := .dict (signedDict sig (c.publickey sk) d) }) rfl
    (lookup_sig_signedDict sig (c.publickey sk) hnodup)
    (lookup_pk_signedDict sig (c.publickey sk) hnodup) (ne_nil_of_length hsize)
    (ne_nil_of_length (c.publickey_size sk)) hsrc' (nodup_parsed _)
  rw [hrecv, unsigned_signedDict]
  rfl

/-- A message arrives under every signature scheme exactly when what was signed is what arrived. -/
theorem forall_transmit_iff (m : Message F) (newId now : PyValue F) :
    (∀ (c : Ed25519) sk, ∃ r, transmit c sk (c.publickey sk) newId now
        { m with src := .str (c.fingerprint (c.publickey sk)) } = some (.handed r)) ↔
      (native m.type = true ∧ native m.dst = true ∧ native m.id = true ∧ native m.ts = true) ∧
      ∃ d, pyDict m.payload = some d ∧ native (.dict (unsigned d)) = true := by
  have hheader : ∀ (c : Ed25519) sk (d : List (PyKey F × PyValue F)),
      delivered { m with src := .str (c.fingerprint (c.publickey sk)) } d =
        { m with src := .str (c.fingerprint (c.publickey sk)), payload := .dict (unsigned d) } ↔
      (native m.type = true ∧ native m.dst = true ∧ native m.id = true ∧ native m.ts = true) ∧
        native (.dict (unsigned d)) = true := by
    intro c sk d
    have hiff := Message.viaJson_eq_iff { m with
      src := .str (c.fingerprint (c.publickey sk)), payload := .dict (unsigned d) }
      (.dict (unsigned d))
    rw [viaJson_eq_self_iff] at hiff
    refine hiff.trans ⟨?_, ?_⟩
    · rintro ⟨⟨htype, _, hdst, hid, hts⟩, hd⟩
      exact ⟨⟨htype, hdst, hid, hts⟩, hd⟩
    · rintro ⟨⟨htype, hdst, hid, hts⟩, hd⟩
      exact ⟨⟨htype, plain_fingerprint c _, hdst, hid, hts⟩, hd⟩
  constructor
  · intro hall
    cases hd : pyDict m.payload with
    | none =>
      obtain ⟨r, hr⟩ := hall (.marking default) []
      rw [transmit, send, hd] at hr
      cases hr
    | some d =>
      let fp : PyValue F := .str ((Ed25519.marking default).fingerprint (List.replicate 32 0))
      let c := Ed25519.marking (reprSorted (delivered { m with src := fp } d).toDict)
      obtain ⟨r, hr⟩ := hall c []
      have heq := transmit_eq (m := { m with src := fp }) hd c [] newId now rfl
      have hr : transmit c [] (c.publickey []) newId now { m with src := fp } =
        some (.handed r) := hr
      rw [heq] at hr
      have hsame : delivered { m with src := fp } d =
          { m with src := fp, payload := .dict (unsigned d) } := by
        by_contra hne
        have hverify : c.verify (c.publickey [])
            (reprSorted (delivered { m with src := fp } d).toDict)
            (c.sign [] (c.publickey []) (reprSorted
              { m with src := fp, payload := .dict (unsigned d) }.toDict)) = false := by
          have htext : reprSorted
              ({ m with src := fp, payload := .dict (unsigned d) } : Message F).toDict ≠
              reprSorted (delivered { m with src := fp } d).toDict :=
            fun he => hne (Message.eq_of_reprSorted he).symm
          simp only [c, Ed25519.marking, if_neg htext, if_true]
          decide
        rw [hverify] at hr
        cases hr
      obtain ⟨hhead, hnative⟩ := (hheader c [] d).1 hsame
      exact ⟨hhead, d, rfl, hnative⟩
  · rintro ⟨hhead, d, hd, hnative⟩ c sk
    have hsame := (hheader c sk d).2 ⟨hhead, hnative⟩
    refine ⟨delivered { m with src := .str (c.fingerprint (c.publickey sk)) } d, ?_⟩
    rw [transmit_eq (m := { m with src := .str (c.fingerprint (c.publickey sk)) }) hd c sk newId
      now rfl, hsame, c.verify_sign]
    rfl

theorem recv_handed {c : Ed25519} {m r : Message F} {l : List (PyKey F × PyValue F)}
    {sig pk : Bytes} (hm : m.payload = .dict l) (hl : (l.map (fun p => p.1.number)).Nodup)
    (hsig : l.lookup (.str sigField) = some (.str (hexdigest sig)))
    (hpk : l.lookup (.str pkField) = some (.str (hexdigest pk))) (h : recv c m = .handed r) :
    r = { m with payload := .dict (unsigned l) } ∧
      c.verify pk (reprSorted { m with payload := .dict (unsigned l) }.toDict) sig = true := by
  have hcanon := canonical_dict (m := { m with payload := .dict (unsigned l) }) rfl
    (nodup_unsigned hl)
  rw [unsigned_idem, unsigned] at hcanon
  simp only [recv, hm, hsig, hpk, fromHex_hexdigest, hcanon] at h
  split at h
  · cases h
  · split at h
    · split at h
      · rename_i hverify
        cases h
        exact ⟨rfl, hverify⟩
      · cases h
    · cases h

/-- The signed form identifies the message but for the fields `_sig` and `_pk` of its payload, so
a signature that fits no other text hands over no other message. -/
theorem signed_form_identifies {m m' : Message F} {d d' : List (PyKey F × PyValue F)}
    (hm : m.payload = .dict d) (hm' : m'.payload = .dict d')
    (hd : (d.map (fun p => p.1.number)).Nodup) (hd' : (d'.map (fun p => p.1.number)).Nodup) :
    (canonical m = canonical m' → m.type = m'.type ∧ m.src = m'.src ∧ m.dst = m'.dst ∧
      m.id = m'.id ∧ m.ts = m'.ts ∧ unsigned d = unsigned d') ∧
    ∀ (c : Ed25519) sig pk r, d'.lookup (.str sigField) = some (.str (hexdigest sig)) →
      d'.lookup (.str pkField) = some (.str (hexdigest pk)) →
      (∀ text, c.verify pk text sig = true → canonical m = some text) →
      recv c m' = .handed r → r = { m with payload := .dict (unsigned d) } := by
  have hform := canonical_dict hm hd
  have hform' := canonical_dict hm' hd'
  constructor
  · intro h
    rw [hform, hform'] at h
    have hsame := Message.eq_of_reprSorted (Option.some.inj h)
    simp only [Message.mk.injEq, PyValue.dict.injEq] at hsame
    obtain ⟨htype, hsrc, hpayload, hdst, hid, hts⟩ := hsame
    exact ⟨htype, hsrc, hdst, hid, hts, hpayload⟩
  · intro c sig pk r hsig hpk hfits hrecv
    obtain ⟨hr, hverify⟩ := recv_handed hm' hd' hsig hpk hrecv
    have htext := hfits _ hverify
    rw [hform] at htext
    rw [hr]
    exact (Message.eq_of_reprSorted (Option.some.inj htext)).symm

end SignedTransport

variable [RationalFloat F]

/-- A message passes authentication whatever the digest, or the signature scheme, exactly when
JSON keeps what is signed: the fields are native, the payload is a dict or is made one by `dict`,
and this dict is native. With a shared key it must not have a field `_sig` either. -/
theorem authenticated_messages_arrive_iff (m : Message F) (newId now : PyValue F) :
    ((∀ h key, ∃ r, SecureTransport.transmit h key newId now m = some (.handed r)) ↔
      m.HeaderNative ∧ ∃ d, pyDict m.payload = some d ∧ native (.dict d) = true ∧
        PyKey.str sigField ∉ d.map Prod.fst) ∧
    ((∀ (c : Ed25519) sk, ∃ r, SignedTransport.transmit c sk (c.publickey sk) newId now
        { m with src := .str (c.fingerprint (c.publickey sk)) } = some (.handed r)) ↔
      (native m.type = true ∧ native m.dst = true ∧ native m.id = true ∧ native m.ts = true) ∧
      ∃ d, pyDict m.payload = some d ∧
        native (.dict (without pkField (without sigField d))) = true) := by
  refine ⟨?_, SignedTransport.forall_transmit_iff m newId now⟩
  rw [SecureTransport.forall_transmit_iff]
  constructor
  · rintro ⟨d, hd, heq⟩
    obtain ⟨hhead, hnative⟩ := (SecureTransport.delivered_eq_iff m d).1 heq
    exact ⟨hhead, d, hd, hnative⟩
  · rintro ⟨hhead, d, hd, hnative⟩
    exact ⟨d, hd, (SecureTransport.delivered_eq_iff m d).2 ⟨hhead, hnative⟩⟩

end

/-- The digest of the buckets that anti-entropy sends: its keys are integers. -/
def aeDigest : Message ℕ where
  type := .str (pyStr ['_', '_', 'a', 'e', '_', 'd', 'i', 'g', 'e', 's', 't', '_', '_'])
  src := .str (pyStr ['a'])
  payload := .dict [(.str (pyStr ['b', 'u', 'c', 'k', 'e', 't', 's']),
    .dict [(.int 3, .str (pyStr ['0', 'f']))]), (.str (pyStr ['n']), .int 64)]
  dst := .none
  id := .str (pyStr ['1'])
  ts := .float (.finite 7)

/-- The sample of a view that a shuffle sends: it is a list of tuples. -/
def hpvShuffle : Message ℕ where
  type := .str (pyStr ['_', '_', 'h', 'p', 'v', '_', 's', 'h', 'u', 'f', 'f', 'l', 'e', '_', '_'])
  src := .str (pyStr ['a'])
  payload := .dict [(.str (pyStr ['o', 'r', 'i', 'g', 'i', 'n']), .str (pyStr ['a'])),
    (.str (pyStr ['o', 'r', 'i', 'g', 'i', 'n', '_', 'a', 'd', 'd', 'r']),
      .str (pyStr ['h', ':', '0'])),
    (.str (pyStr ['n', 'o', 'd', 'e', 's']),
    .list [.tuple [.str (pyStr ['b']), .str (pyStr ['h', ':', '1'])]]),
    (.str (pyStr ['t', 't', 'l']), .int 2)]
  dst := .none
  id := .str (pyStr ['2'])
  ts := .float (.finite 7)

/-- Neither transport lets both of these messages of the program's own services through. -/
theorem own_messages_are_rejected :
    ¬ ∃ _ : UnicodeData,
      (∀ (m : Message ℕ) (newId now : PyValue ℕ) h key,
        ∃ r, SecureTransport.transmit h key newId now m = some (.handed r)) ∨
      (∀ (m : Message ℕ) (newId now : PyValue ℕ) (c : Ed25519) sk,
        ∃ r, SignedTransport.transmit c sk (c.publickey sk) newId now
          { m with src := .str (c.fingerprint (c.publickey sk)) } = some (.handed r)) := by
  rintro ⟨_, hsecure | hsigned⟩
  · obtain ⟨d, hd, heq⟩ :=
      (SecureTransport.forall_transmit_iff aeDigest .none .none).1 (hsecure aeDigest .none .none)
    obtain ⟨_, hnative, _⟩ := (SecureTransport.delivered_eq_iff aeDigest d).1 heq
    cases hd
    exact absurd hnative (by decide)
  · obtain ⟨_, d, hd, hnative⟩ :=
      (SignedTransport.forall_transmit_iff hpvShuffle .none .none).1
        (hsigned hpvShuffle .none .none)
    cases hd
    exact absurd hnative (by decide)

namespace SignedTransport

/-- The payload of the sample with a signature in it, and without one. -/
def signedSample : List (PyKey ℕ × PyValue ℕ) :=
  [(.str sigField, .str (pyStr ['0', '1'])), (.str (pyStr ['n']), .list [.int 64, .none])]

def unsignedSample : List (PyKey ℕ × PyValue ℕ) :=
  [(.str (pyStr ['n']), .list [.int 64, .none])]

theorem signed_form_identifies_sample :
    ∃ _ : UnicodeData, aeDigest.type = aeDigest.type ∧ aeDigest.src = aeDigest.src ∧
      aeDigest.dst = aeDigest.dst ∧ aeDigest.id = aeDigest.id ∧ aeDigest.ts = aeDigest.ts ∧
      unsigned signedSample = unsigned unsignedSample := by
  have data : UnicodeData := ⟨fun _ => false, fun _ _ => rfl, fun _ _ => rfl⟩
  have hboth := @signed_form_identifies ℕ data _ _ _ { aeDigest with payload := .dict signedSample }
    { aeDigest with payload := .dict unsignedSample } signedSample unsignedSample rfl rfl
    (by decide) (by decide)
  refine ⟨data, hboth.1 ?_⟩
  rw [canonical_dict rfl (show (signedSample.map (fun p => p.1.number)).Nodup by decide),
    canonical_dict rfl (show (unsignedSample.map (fun p => p.1.number)).Nodup by decide)]
  rfl

end SignedTransport

end Suprime
