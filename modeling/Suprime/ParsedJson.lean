import Suprime.JsonPrefix
import Suprime.SealedRoundTrip
import Suprime.TcpFraming

namespace Suprime
set_option autoImplicit true

section
variable {F : Type} [FiniteFloat F] [DecidableEq F]

/-- JSON keeps the message. -/
structure Message.Native (m : Message F) : Prop where
  header : m.HeaderNative
  payload : native m.payload = true

theorem Message.fromBytes_toBytes_native {m : Message F} (hm : m.Native) (newId now : PyValue F) :
    Message.fromBytes newId now m.toBytes = some m := by
  rw [Message.fromBytes_toBytes, Message.viaJson_eq_self hm.header hm.payload]

section
omit [FiniteFloat F]

theorem nativeItems_assocSet {s : PyStr} {v : PyValue F} {d : List (PyKey F × PyValue F)}
    (hs : plain s = true) (hv : native v = true) (hd : nativeItems d = true) :
    nativeItems (assocSet (.str s) v d) = true := by
  induction d with
  | nil =>
    rw [assocSet, nativeItems, hs, hv]
    rfl
  | cons p d ih =>
    obtain ⟨k, w⟩ := p
    cases k with
    | str t =>
      rw [nativeItems, Bool.and_eq_true] at hd
      by_cases ht : (PyKey.str t : PyKey F) = .str s
      · cases ht
        rw [assocSet, if_pos rfl, nativeItems, hs, hv, hd.2]
        rfl
      · rw [assocSet, if_neg ht, nativeItems, hd.1, ih hd.2]
        rfl
    | _ => cases hd

theorem native_assocSet {s : PyStr} {v : PyValue F} {d : List (PyKey F × PyValue F)}
    (hs : plain s = true) (hv : native v = true) (hd : native (.dict d) = true) :
    native (.dict (assocSet (.str s) v d)) = true := by
  rw [native, Bool.and_eq_true, decide_eq_true_eq] at hd ⊢
  exact ⟨nativeItems_assocSet hs hv hd.1, nodup_assocSet hd.2⟩

theorem nativeItems_append {d e : List (PyKey F × PyValue F)} :
    nativeItems (d ++ e) = (nativeItems d && nativeItems e) := by
  induction d with
  | nil => rfl
  | cons p d ih =>
    obtain ⟨k, w⟩ := p
    cases k with
    | str t => rw [List.cons_append, nativeItems, nativeItems, ih, Bool.and_assoc (_ && _)]
    | _ => rfl

theorem native_ofPairs {ps : List (PyKey F × PyValue F)} (hps : nativeItems ps = true) :
    native (.dict (ofPairs ps)) = true := by
  induction ps using List.reverseRecOn with
  | nil => rfl
  | append_singleton ps p ih =>
    obtain ⟨k, v⟩ := p
    rw [nativeItems_append, Bool.and_eq_true] at hps
    rw [ofPairs_concat]
    cases k with
    | str s =>
      rw [nativeItems, Bool.and_eq_true, Bool.and_eq_true] at hps
      exact native_assocSet hps.2.1.1 hps.2.1.2 (ih hps.1)
    | _ => cases hps.2

end

theorem plain_cons {c : CodePoint} {s : PyStr}
    (hc : ∀ d, s.head? = some d → (isHigh c && isLow d) = false) (hs : plain s = true) :
    plain (c :: s) = true := by
  cases s with
  | nil => rfl
  | cons d s => rw [plain, hc d rfl, hs]; rfl

theorem astral_of_pair {c d : CodePoint} (h : (isHigh c && isLow d) = true) :
    ¬ (joinPair c d).val < 65536 := by
  simp only [isHigh, isLow, Bool.and_eq_true, decide_eq_true_eq] at h
  have hval : (joinPair c d).val = 65536 + (c.val - 55296) * 1024 + (d.val - 56320) :=
    Nat.mod_eq_of_lt (by omega)
  omega

theorem head_of_low {c : CodePoint} {us : List CodePoint} (h : (joinUnits us).head? = some c)
    (hc : isLow c = true) : us.head? = some c := by
  cases us using joinUnits.fun_cases with
  | case1 => cases h
  | case2 d => exact h
  | case3 a b t hpair =>
    rw [joinUnits, if_pos hpair] at h
    rw [← Option.some.inj h] at hc
    exact absurd hc (Bool.eq_false_iff.1 (isLow_of_astral (astral_of_pair hpair)))
  | case4 a b t hpair =>
    rw [joinUnits, if_neg hpair] at h
    exact h

theorem plain_joinUnits (us : List CodePoint) : plain (joinUnits us) = true := by
  induction us using joinUnits.induct with
  | case1 => rfl
  | case2 c => rfl
  | case3 c d t hpair ih =>
    rw [joinUnits, if_pos hpair]
    apply plain_cons _ ih
    intro e _
    have hhigh : isHigh (joinPair c d) = false := isHigh_of_astral (astral_of_pair hpair)
    rw [joinPair] at hhigh
    rw [hhigh, Bool.false_and]
  | case4 c d t hpair ih =>
    rw [joinUnits, if_neg hpair]
    apply plain_cons _ ih
    intro e he
    cases hlow : isLow e with
    | false => rw [Bool.and_false]
    | true =>
      cases head_of_low he hlow
      rw [hlow] at hpair
      exact Bool.eq_false_iff.2 hpair

theorem native_of_scanConstant {v : PyValue F} (h : scanConstant t = some (v, r)) :
    native v = true := by
  unfold scanConstant at h
  split at h
  · rename_i l u _
    cases h
    cases l.isInt <;> rfl
  · iterate 6
      split at h
      · cases h
        rfl
    cases h

theorem native_of_scan (n : ℕ) :
    (∀ t (v : PyValue F) r, scanOnce n t = some (v, r) → native v = true) ∧
    (∀ t (vs : List (PyValue F)) r, scanList n t = some (vs, r) → nativeList vs = true) ∧
    ∀ t (ps : List (PyKey F × PyValue F)) r, scanItems n t = some (ps, r) →
      nativeItems ps = true := by
  induction n with
  | zero =>
    refine ⟨fun t v r h => ?_, fun t vs r h => ?_, fun t ps r h => ?_⟩
    · rw [scanOnce] at h
      cases h
    · rw [scanList] at h
      cases h
    · rw [scanItems] at h
      cases h
  | succ n ih =>
    obtain ⟨hvalue, hlist, hitems⟩ := ih
    refine ⟨fun t v r h => ?_, fun t vs r h => ?_, fun t ps r h => ?_⟩
    · cases t with
      | nil =>
        rw [scanOnce] at h
        cases h
      | cons c t =>
        rw [scanOnce] at h
        split at h
        · obtain ⟨⟨us, u⟩, _, h⟩ := Option.bind_eq_some_iff.1 h
          cases h
          exact plain_joinUnits us
        · split at h
          · split at h
            · cases h
            · split at h
              · cases h
                rfl
              · obtain ⟨⟨ps, u⟩, hps, h⟩ := Option.bind_eq_some_iff.1 h
                cases h
                exact native_ofPairs (hitems _ _ _ hps)
          · split at h
            · split at h
              · cases h
              · split at h
                · cases h
                  rfl
                · obtain ⟨⟨vs, u⟩, hvs, h⟩ := Option.bind_eq_some_iff.1 h
                  cases h
                  exact hlist _ _ _ hvs
            · exact native_of_scanConstant h
    · rw [scanList] at h
      obtain ⟨⟨v, u⟩, hv, h⟩ := Option.bind_eq_some_iff.1 h
      dsimp only at h
      have hnative := hvalue _ _ _ hv
      split at h
      · cases h
      · split at h
        · cases h
          rw [nativeList, hnative]
          rfl
        · split at h
          · obtain ⟨⟨ws, r'⟩, hws, h⟩ := Option.bind_eq_some_iff.1 h
            cases h
            rw [nativeList, hnative, hlist _ _ _ hws]
            rfl
          · cases h
    · cases t with
      | nil =>
        rw [scanItems] at h
        cases h
      | cons q t =>
        rw [scanItems] at h
        split at h
        · obtain ⟨⟨us, u⟩, _, h⟩ := Option.bind_eq_some_iff.1 h
          dsimp only at h
          have hkey := plain_joinUnits us
          split at h
          · cases h
          · split at h
            · obtain ⟨⟨v, w⟩, hv, h⟩ := Option.bind_eq_some_iff.1 h
              dsimp only at h
              have hnative := hvalue _ _ _ hv
              split at h
              · cases h
              · split at h
                · cases h
                  rw [nativeItems, hkey, hnative]
                  rfl
                · split at h
                  · obtain ⟨⟨qs, r'⟩, hqs, h⟩ := Option.bind_eq_some_iff.1 h
                    cases h
                    rw [nativeItems, hkey, hnative, hitems _ _ _ hqs]
                    rfl
                  · cases h
            · cases h
        · cases h

theorem native_of_loads {v : PyValue F} (h : loads t = some v) : native v = true := by
  rw [loads] at h
  split at h
  · rename_i w r hscan
    split at h
    · cases h
      exact (native_of_scan _).1 _ _ _ hscan
    · cases h
  · cases h

section
omit [FiniteFloat F]

theorem native_of_lookup {d : List (PyKey F × PyValue F)} {k : PyKey F} {v : PyValue F}
    (hd : nativeItems d = true) (h : d.lookup k = some v) : native v = true := by
  induction d with
  | nil => cases h
  | cons p d ih =>
    obtain ⟨a, w⟩ := p
    cases a with
    | str s =>
      rw [nativeItems, Bool.and_eq_true, Bool.and_eq_true] at hd
      rw [List.lookup_cons] at h
      split at h
      · cases h
        exact hd.1.2
      · exact ih hd.2 h
    | _ => cases hd

theorem native_getD {d : List (PyKey F × PyValue F)} {k : PyKey F} {v : PyValue F}
    (hd : nativeItems d = true) (hv : native v = true) :
    native ((d.lookup k).getD v) = true := by
  cases h : d.lookup k with
  | none => exact hv
  | some w => exact native_of_lookup hd h

end

theorem Message.exists_dict_of_fromBytes {m : Message F} {newId now : PyValue F}
    (h : Message.fromBytes newId now raw = some m) : ∃ d : List (PyKey F × PyValue F),
      nativeItems d = true ∧ d.lookup (.str typeField) = some m.type ∧
      d.lookup (.str srcField) = some m.src ∧
      m.payload = (d.lookup (.str payloadField)).getD (.dict []) ∧
      m.dst = (d.lookup (.str dstField)).getD .none ∧
      m.id = (d.lookup (.str idField)).getD newId ∧
      m.ts = (d.lookup (.str timeField)).getD now := by
  obtain ⟨t, _, h⟩ := Option.bind_eq_some_iff.1 h
  obtain ⟨v, hv, h⟩ := Option.bind_eq_some_iff.1 h
  have hnative := native_of_loads hv
  cases v with
  | dict d =>
    rw [native, Bool.and_eq_true] at hnative
    rw [Message.fromDict] at h
    split at h
    · rename_i htype hsrc
      cases h
      exact ⟨d, hnative.1, htype, hsrc, rfl, rfl, rfl, rfl⟩
    · cases h
  | _ => cases h

theorem Message.native_payload_of_fromBytes {m : Message F} {newId now : PyValue F}
    (h : Message.fromBytes newId now raw = some m) : native m.payload = true := by
  obtain ⟨d, hd, _, _, hpayload, _⟩ := exists_dict_of_fromBytes h
  rw [hpayload]
  exact native_getD hd rfl

theorem Message.native_of_fromBytes {m : Message F} {newId now : PyValue F}
    (h : Message.fromBytes newId now raw = some m) (hid : native newId = true)
    (hnow : native now = true) : m.Native := by
  obtain ⟨d, hd, htype, hsrc, _, hdst, hmid, hts⟩ := exists_dict_of_fromBytes h
  refine ⟨⟨native_of_lookup hd htype, native_of_lookup hd hsrc, ?_, ?_, ?_⟩,
    native_payload_of_fromBytes h⟩
  · rw [hdst]
    exact native_getD hd rfl
  · rw [hmid]
    exact native_getD hd hid
  · rw [hts]
    exact native_getD hd hnow

namespace TcpTransport

/-- A node that passes on what it reads: what it gives a message that lacks an id or a time, and
how it compresses. -/
structure Hop (F : Type) where
  defaults : Defaults F
  compress : List UInt8 → List UInt8
  compressOver : ℤ

/-- The body of the frame that a node sends on for the body that it has read. -/
def Hop.relay (gz : Gzip) (hop : Hop F) (body : List UInt8) : Option (List UInt8) :=
  (decodeBody gz hop.defaults body).map (encodeBody hop.compress hop.compressOver)

/-- The first node that reads a message fixes it: it is native at every depth, and whatever nodes
pass it on, with whatever compression, everyone who reads it reads the same message. -/
theorem accepted_message_relays_unchanged {gz : Gzip} {d : Defaults F} {body : List UInt8}
    {m : Message F} {hop : Hop F} {hops : List (Hop F)} (hid : native d.newId = true)
    (hnow : native d.now = true) (hread : decodeBody gz d body = some m)
    (hgz : ∀ hop' ∈ hop :: hops, ∀ b, gz.decompress (hop'.compress b) = some b) :
    m.Native ∧ ∃ body', hops.foldlM (fun body hop => hop.relay gz body)
        (encodeBody hop.compress hop.compressOver m) = some body' ∧
      ∀ d', decodeBody gz d' body' = some m := by
  have hnative : m.Native := by
    cases body with
    | nil => cases hread
    | cons flag body =>
      obtain ⟨raw, _, hread⟩ := Option.bind_eq_some_iff.1 hread
      exact Message.native_of_fromBytes hread hid hnow
  refine ⟨hnative, ?_⟩
  have hself := Message.viaJson_eq_self hnative.header hnative.payload
  have hagain : ∀ hop' ∈ hop :: hops, ∀ d',
      decodeBody gz d' (encodeBody hop'.compress hop'.compressOver m) = some m := by
    intro hop' hmem d'
    rw [decodeBody_encodeBody (hgz hop' hmem), hself]
  -- each hop reads the message from the frame of the hop before it
  induction hops generalizing hop with
  | nil => exact ⟨_, rfl, hagain hop List.mem_cons_self⟩
  | cons next hops ih =>
    have hrelay : next.relay gz (encodeBody hop.compress hop.compressOver m) =
        some (encodeBody next.compress next.compressOver m) := by
      rw [Hop.relay, hagain hop List.mem_cons_self, Option.map_some]
    rw [List.foldlM_cons, hrelay]
    exact ih (fun hop' hmem => hgz hop' (List.mem_cons_of_mem _ hmem))
      (fun hop' hmem => hagain hop' (List.mem_cons_of_mem _ hmem))

end TcpTransport

end

namespace TcpTransport

theorem accepted_message_relays_unchanged_of_greeting : ∃ body',
    [(⟨⟨.none, .none⟩, fun b => b, 8⟩ : Hop ℕ)].foldlM (fun body hop => hop.relay ⟨some⟩ body)
        (encodeBody (fun b => b) 1024 greeting) = some body' ∧
      ∀ d', decodeBody ⟨some⟩ d' body' = some greeting := by
  have hgz : ∀ hop ∈ [(⟨⟨.none, .none⟩, fun b => b, 1024⟩ : Hop ℕ),
      ⟨⟨.none, .none⟩, fun b => b, 8⟩],
      ∀ b, (Gzip.mk some).decompress (hop.compress b) = some b := by
    intro hop hmem b
    rcases List.mem_cons.1 hmem with rfl | hmem
    · rfl
    · rw [List.mem_singleton.1 hmem]
  exact (accepted_message_relays_unchanged (d := ⟨.none, .none⟩) rfl rfl
    (decodeBody_plainFrame _ _ greeting) hgz).2

end TcpTransport

end Suprime
