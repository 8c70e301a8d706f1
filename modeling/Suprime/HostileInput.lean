import Suprime.AuthRoundTrip
import Suprime.EncryptedTransport

namespace Suprime
set_option autoImplicit true

/-- A string that `hmac.compare_digest` takes. -/
def AsciiStr (v : PyValue F) : Prop := ∃ s : PyStr, v = .str s ∧ ∀ c ∈ s, c.val < 128

section
variable {F : Type} [UnicodeData] [FiniteFloat F] [DecidableEq F]

namespace SecureTransport

section
omit [UnicodeData] [FiniteFloat F] [DecidableEq F]

theorem compareDigest_eq_none_iff (sig : PyValue F) (expected : PyStr) :
    compareDigest sig expected = none ↔ ¬ AsciiStr sig := by
  have hnot : ∀ v : PyValue F, (∀ s, v ≠ .str s) → ¬ AsciiStr v :=
    fun v hv ⟨s, hs, _⟩ => hv s hs
  cases sig with
  | str s =>
    have hall : s.all (fun c => c.val < 128) = true ↔ AsciiStr (.str s : PyValue F) := by
      rw [List.all_eq_true]
      constructor
      · intro h
        exact ⟨s, rfl, fun c hc => of_decide_eq_true (h c hc)⟩
      · intro ⟨t, ht, h⟩ c hc
        cases ht
        exact decide_eq_true (h c hc)
    rw [← hall]
    by_cases h : s.all (fun c => c.val < 128) = true
    · simp only [compareDigest, if_pos h]
      exact iff_of_false (fun h => by cases h) (not_not.2 h)
    · simp only [compareDigest, if_neg h]
      exact iff_of_true trivial h
  | none => exact iff_of_true rfl (hnot _ (fun s h => by cases h))
  | bool b => exact iff_of_true rfl (hnot _ (fun s h => by cases h))
  | int i => exact iff_of_true rfl (hnot _ (fun s h => by cases h))
  | float f => exact iff_of_true rfl (hnot _ (fun s h => by cases h))
  | list l => exact iff_of_true rfl (hnot _ (fun s h => by cases h))
  | tuple l => exact iff_of_true rfl (hnot _ (fun s h => by cases h))
  | dict l => exact iff_of_true rfl (hnot _ (fun s h => by cases h))

end

/-- The tag, if there is one, is an ASCII string. -/
def Sound (m : Message F) : Prop :=
  ∀ l sig, m.payload = .dict l → l.lookup (.str sigField) = some sig → sig ≠ .none → AsciiStr sig

theorem recv_of_not_dict (h : Hmac) (clusterKey : Bytes) {m : Message F}
    (hm : ∀ l, m.payload ≠ .dict l) : recv h clusterKey m = .dropped := by
  cases hp : m.payload with
  | dict l => exact absurd hp (hm l)
  | _ => simp only [recv, hp]

theorem recv_raised_iff (h : Hmac) (clusterKey : Bytes) (m : Message F) :
    recv h clusterKey m ≠ .raised ↔ Sound m := by
  by_cases hd : ∃ l, m.payload = .dict l
  · obtain ⟨l, hl⟩ := hd
    cases hsig : l.lookup (.str sigField) with
    | none =>
      simp only [recv, hl, hsig]
      refine iff_of_true (fun h => by cases h) ?_
      intro l' sig hl' hs
      cases hl.symm.trans hl'
      rw [hsig] at hs
      cases hs
    | some sig =>
      by_cases hnone : sig = .none
      · simp only [recv, hl, hsig, hnone]
        refine iff_of_true (fun h => by cases h) ?_
        intro l' sig' hl' hs hne
        cases hl.symm.trans hl'
        rw [hsig] at hs
        cases hs
        exact absurd hnone hne
      · have hsound : Sound m ↔ AsciiStr sig := by
          constructor
          · intro h
            exact h l sig hl hsig hnone
          · intro h l' sig' hl' hs _
            cases hl.symm.trans hl'
            rw [hsig] at hs
            cases hs
            exact h
        have hcmp := compareDigest_eq_none_iff sig
          (sign h clusterKey { m with payload := .dict (without sigField l) })
        rw [hsound, ← not_iff_not, not_not, ← hcmp]
        cases hc : compareDigest sig
            (sign h clusterKey { m with payload := .dict (without sigField l) }) with
        | none =>
          have hrecv : recv h clusterKey m = .raised := by
            cases sig <;> first
              | exact absurd rfl hnone
              | simp only [recv, hl, hsig, hc]
          exact iff_of_true hrecv rfl
        | some b =>
          have hrecv : recv h clusterKey m ≠ .raised := by
            cases sig <;> first
              | exact absurd rfl hnone
              | (simp only [recv, hl, hsig, hc]
                 cases b <;> exact fun h => by cases h)
          exact iff_of_false hrecv (fun h => by cases h)
  · rw [recv_of_not_dict h clusterKey (fun l hl => hd ⟨l, hl⟩)]
    exact iff_of_true (fun h => by cases h) (fun l _ hl => absurd ⟨l, hl⟩ hd)

end SecureTransport

namespace SignedTransport

variable [RationalFloat F]

/-- The key, if both fields are there, is a string, and so is the signature if the key is
hexadecimal. -/
def Sound (m : Message F) : Prop :=
  ∀ l sig pk, m.payload = .dict l → l.lookup (.str sigField) = some sig →
    l.lookup (.str pkField) = some pk → truthy sig = true → truthy pk = true →
    ∃ p, pk = .str p ∧ (fromHex p = none ∨ ∃ s, sig = .str s)

theorem canonical_ne_none {m : Message F} {l : List (PyKey F × PyValue F)}
    (h : m.payload = .dict l) : canonical m ≠ none := by
  rw [canonical, h, pyDict]
  exact fun h => by cases h

theorem recv_of_strs (c : Ed25519) {m : Message F} {l : List (PyKey F × PyValue F)} {p s : PyStr}
    (hm : m.payload = .dict l) (hs : l.lookup (.str sigField) = some (.str s))
    (hp : l.lookup (.str pkField) = some (.str p)) : recv c m ≠ .raised := by
  have hcanon := canonical_ne_none
    (m := { m with payload := .dict (without pkField (without sigField l)) }) rfl
  simp only [recv, hm, hs, hp]
  split
  · exact fun h => by cases h
  · split
    · split
      · split
        · split <;> exact fun h => by cases h
        · rename_i hc
          exact absurd hc hcanon
      · exact fun h => by cases h
    · exact fun h => by cases h

theorem recv_of_missing (c : Ed25519) {m : Message F} {l : List (PyKey F × PyValue F)}
    (hm : m.payload = .dict l)
    (h : ((l.lookup (.str sigField)).any truthy && (l.lookup (.str pkField)).any truthy) = false) :
    recv c m = .dropped := by
  simp only [recv, hm, h, Bool.not_false, if_true]

theorem recv_of_other (c : Ed25519) {m : Message F} {l : List (PyKey F × PyValue F)}
    {sig pk : PyValue F} (hm : m.payload = .dict l) (hs : l.lookup (.str sigField) = some sig)
    (hp : l.lookup (.str pkField) = some pk) (hts : truthy sig = true) (htp : truthy pk = true)
    (h : ¬ ∃ p s, pk = .str p ∧ sig = .str s) :
    recv c m ≠ .raised ↔ ∃ p, pk = .str p ∧ fromHex p = none := by
  have hboth : (!((some sig).any truthy && (some pk).any truthy)) = false := by
    rw [Option.any_some, Option.any_some, hts, htp]
    rfl
  by_cases hpk : ∃ p, pk = .str p
  · obtain ⟨p, rfl⟩ := hpk
    have hrecv : recv c m = if (fromHex p).isNone then .dropped else .raised := by
      cases sig <;> first
        | exact absurd ⟨p, _, rfl, rfl⟩ h
        | simp only [recv, hm, hs, hp, hboth, Bool.false_eq_true, if_false]
    rw [hrecv]
    cases hx : fromHex p with
    | none => exact iff_of_true (fun h => by cases h) ⟨p, rfl, hx⟩
    | some b =>
      apply iff_of_false (fun h => h rfl)
      rintro ⟨q, hq, hn⟩
      cases hq
      rw [hx] at hn
      cases hn
  · have hrecv : recv c m = .raised := by
      cases pk <;> first
        | exact absurd ⟨_, rfl⟩ hpk
        | simp only [recv, hm, hs, hp, hboth, Bool.false_eq_true, if_false]
    rw [hrecv]
    apply iff_of_false (fun h => h rfl)
    rintro ⟨p, hq, _⟩
    exact hpk ⟨p, hq⟩

theorem recv_raised_iff (c : Ed25519) (m : Message F) : recv c m ≠ .raised ↔ Sound m := by
  by_cases hd : ∃ l, m.payload = .dict l
  · obtain ⟨l, hl⟩ := hd
    cases hboth : (l.lookup (.str sigField)).any truthy && (l.lookup (.str pkField)).any truthy with
    | false =>
      rw [recv_of_missing c hl hboth]
      refine iff_of_true (fun h => by cases h) ?_
      intro l' sig pk hl' hs hp hts htp
      cases hl.symm.trans hl'
      rw [hs, hp, Option.any_some, Option.any_some, hts, htp] at hboth
      cases hboth
    | true =>
      obtain ⟨hsome, hsome'⟩ := Bool.and_eq_true_iff.1 hboth
      obtain ⟨sig, hs, hts⟩ := (Option.any_eq_true _ _).1 hsome
      obtain ⟨pk, hp, htp⟩ := (Option.any_eq_true _ _).1 hsome'
      have hsound : Sound m ↔ ∃ p, pk = .str p ∧ (fromHex p = none ∨ ∃ s, sig = .str s) := by
        constructor
        · intro h
          exact h l sig pk hl hs hp hts htp
        · intro h l' sig' pk' hl' hs' hp' _ _
          cases hl.symm.trans hl'
          rw [hs] at hs'
          rw [hp] at hp'
          cases hs'
          cases hp'
          exact h
      rw [hsound]
      by_cases hstr : ∃ p s, pk = .str p ∧ sig = .str s
      · obtain ⟨p, s, rfl, rfl⟩ := hstr
        exact iff_of_true (recv_of_strs c hl hs hp) ⟨p, rfl, .inr ⟨s, rfl⟩⟩
      · rw [recv_of_other c hl hs hp hts htp hstr]
        constructor
        · intro ⟨p, hpk, hx⟩
          exact ⟨p, hpk, .inl hx⟩
        · intro ⟨p, hpk, hor⟩
          cases hor with
          | inl hx => exact ⟨p, hpk, hx⟩
          | inr hsig =>
            obtain ⟨s, hsig⟩ := hsig
            exact absurd ⟨p, s, hpk, hsig⟩ hstr
  · have hrecv : recv c m = .dropped := by
      cases hp : m.payload with
      | dict l => exact absurd ⟨l, hp⟩ hd
      | _ => simp only [recv, hp]
    rw [hrecv]
    exact iff_of_true (fun h => by cases h) (fun l _ _ hl => absurd ⟨l, hl⟩ hd)

end SignedTransport

namespace EncryptedTransport

/-- What the envelope of a message must be for `_recv` not to raise: the fields that are read are
absent or strings, and what carries the right tag is a nonce of twelve bytes and the ciphertext of
a message. -/
def Sound (h : Hmac) (key : Key) (newId now : PyValue F) (m : Message F) : Prop :=
  m.type = .str ENVELOPE → hexField nField m.payload ≠ .uncaught ∧
    ∀ nonce, hexField nField m.payload = .ok nonce → hexField ctField m.payload ≠ .uncaught ∧
      ∀ ct, hexField ctField m.payload = .ok ct → ∀ tag, field macField m.payload = .ok tag →
        AsciiStr tag ∧ (tag = .str (mac h key nonce ct) → nonce.length = 12 ∧
          ∀ plaintext, chacha20 key.bytes nonce ct = some plaintext →
            Message.fromBytes newId now ⟨plaintext.toArray⟩ ≠ none)

section
omit [UnicodeData] [FiniteFloat F] [DecidableEq F]

theorem isStr_iff {v : PyValue F} (s : PyStr) : v.isStr s = true ↔ v = .str s := by
  cases v with
  | str t => simp [PyValue.isStr]
  | _ => exact iff_of_false Bool.false_ne_true (fun h => by cases h)

theorem compareDigest_str {s : PyStr} (hs : AsciiStr (.str s : PyValue F)) (expected : PyStr) :
    SecureTransport.compareDigest (.str s : PyValue F) expected = some (decide (s = expected)) := by
  obtain ⟨t, ht, hascii⟩ := hs
  cases ht
  have hall : s.all (fun c => c.val < 128) = true :=
    List.all_eq_true.2 (fun c hc => decide_eq_true (hascii c hc))
  simp only [SecureTransport.compareDigest, if_pos hall]

end

section
omit [UnicodeData]

theorem openEnvelope_raised_iff (h : Hmac) (key : Key) (newId now : PyValue F) (nonce ct : Bytes)
    (tag : PyValue F) :
    openEnvelope h key newId now nonce ct tag ≠ .raised ↔
      AsciiStr tag ∧ (tag = .str (mac h key nonce ct) → nonce.length = 12 ∧
        ∀ plaintext, chacha20 key.bytes nonce ct = some plaintext →
          Message.fromBytes newId now ⟨plaintext.toArray⟩ ≠ none) := by
  by_cases htag : AsciiStr tag
  · obtain ⟨s, rfl, _⟩ := id htag
    rw [openEnvelope, compareDigest_str htag]
    by_cases heq : s = mac h key nonce ct
    · rw [decide_eq_true heq]
      cases hplain : chacha20 key.bytes nonce ct with
      | none =>
        apply iff_of_false (fun h => h rfl)
        intro hsound
        obtain ⟨hlen, _⟩ := hsound.2 (congrArg _ heq)
        have hsome := (isSome_chacha20_iff key.bytes nonce ct).2 ⟨key.size, hlen⟩
        rw [hplain] at hsome
        cases hsome
      | some plaintext =>
        have hlen := ((isSome_chacha20_iff key.bytes nonce ct).1 (by rw [hplain]; rfl)).2
        cases hm : Message.fromBytes newId now ⟨plaintext.toArray⟩ with
        | none =>
          simp only [hm]
          apply iff_of_false (fun h => h rfl)
          intro hsound
          exact (hsound.2 (congrArg _ heq)).2 plaintext rfl hm
        | some inner =>
          simp only [hm]
          apply iff_of_true (fun h => by cases h)
          refine ⟨htag, fun _ => ⟨hlen, ?_⟩⟩
          intro plaintext' hp' hnone
          cases hp'
          rw [hm] at hnone
          cases hnone
    · rw [decide_eq_false heq]
      exact iff_of_true (fun h => by cases h) ⟨htag, fun h => absurd (PyValue.str.inj h) heq⟩
  · rw [openEnvelope, (SecureTransport.compareDigest_eq_none_iff tag _).2 htag]
    exact iff_of_false (fun h => h rfl) (fun h => htag h.1)

end

section
omit [UnicodeData] [FiniteFloat F]

theorem field_ne_uncaught {payload : PyValue F} (h : hexField name payload = .ok b)
    (name' : PyStr) : field name' payload ≠ .uncaught := by
  cases payload with
  | dict l =>
    rw [field]
    cases l.lookup (.str name') with
    | none => exact fun h => by cases h
    | some v => exact fun h => by cases h
  | _ => cases h

end

section
omit [UnicodeData]

theorem recv_raised_iff (h : Hmac) (key : Key) (newId now : PyValue F) (m : Message F) :
    recv h key newId now m ≠ .raised ↔ Sound h key newId now m := by
  rw [recv, Sound, ← isStr_iff]
  cases m.type.isStr ENVELOPE with
  | false => simp
  | true =>
    cases hn : hexField nField m.payload with
    | uncaught => simp
    | caught => simp
    | ok nonce =>
      cases hexField ctField m.payload with
      | uncaught => simp
      | caught => simp
      | ok ct =>
        cases hmac : field macField m.payload with
        | uncaught => exact absurd hmac (field_ne_uncaught hn macField)
        | caught => simp
        | ok tag =>
          simp only [if_true]
          rw [openEnvelope_raised_iff]
          simp

end

end EncryptedTransport

variable [RationalFloat F]

/-- Each receiver hands over or drops exactly the messages whose fields have the types that it
takes for granted. -/
theorem receivers_total_iff (h : Hmac) (clusterKey : Bytes) (c : Ed25519)
    (key : EncryptedTransport.Key) (newId now : PyValue F) (m : Message F) :
    (SecureTransport.recv h clusterKey m ≠ .raised ↔ SecureTransport.Sound m) ∧
      (SignedTransport.recv c m ≠ .raised ↔ SignedTransport.Sound m) ∧
      (EncryptedTransport.recv h key newId now m ≠ .raised ↔
        EncryptedTransport.Sound h key newId now m) :=
  ⟨SecureTransport.recv_raised_iff h clusterKey m, SignedTransport.recv_raised_iff c m,
    EncryptedTransport.recv_raised_iff h key newId now m⟩

section
omit [UnicodeData] [RationalFloat F]

theorem moved_nonce_raises (h : Hmac) (key : EncryptedTransport.Key) (newId now : PyValue F)
    (nonce ct : Bytes) (hlen : (nonce ++ ct).length ≠ 12) (src dst id ts : PyValue F) :
    EncryptedTransport.recv h key newId now ⟨.str EncryptedTransport.ENVELOPE, src,
      EncryptedTransport.sealed (nonce ++ ct) [] (EncryptedTransport.mac h key nonce ct),
      dst, id, ts⟩ = .raised := by
  by_contra hr
  have hsound := (EncryptedTransport.recv_raised_iff h key newId now _).1 hr rfl
  have hn : EncryptedTransport.hexField EncryptedTransport.nField (EncryptedTransport.sealed
      (F := F) (nonce ++ ct) [] (EncryptedTransport.mac h key nonce ct)) = .ok (nonce ++ ct) := by
    have hread : EncryptedTransport.field EncryptedTransport.nField (EncryptedTransport.sealed
        (F := F) (nonce ++ ct) [] (EncryptedTransport.mac h key nonce ct)) =
        .ok (.str (hexdigest (nonce ++ ct))) := rfl
    rw [EncryptedTransport.hexField, hread]
    simp only [fromHex_hexdigest]
  have htag := ((hsound.2 _ hn).2 [] rfl _ rfl).2
  apply hlen
  apply (htag _).1
  rw [EncryptedTransport.mac, EncryptedTransport.mac, List.append_nil]

end

end

/-- Numbers as fields, or a ciphertext in the wrong field, make each of the receivers raise. -/
theorem hostile_fields_raise :
    ¬ ∃ _ : UnicodeData,
      (∀ h clusterKey (m : Message ℕ), SecureTransport.recv h clusterKey m ≠ .raised) ∨
      (∀ c (m : Message ℕ), SignedTransport.recv c m ≠ .raised) ∨
      ∀ h key newId now (m : Message ℕ), EncryptedTransport.recv h key newId now m ≠ .raised := by
  intro ⟨_, hall⟩
  let hostile (payload : PyValue ℕ) : Message ℕ :=
    ⟨.str [116], .str [115], payload, .none, .str [49], .int 0⟩
  cases hall with
  | inl hall =>
    exact hall (.marking default) [] (hostile (writeItems [(sigField, .int 5)])) rfl
  | inr hall =>
    cases hall with
    | inl hall =>
      exact hall (.marking default)
        (hostile (writeItems [(sigField, .str [97]), (pkField, .int 5)])) rfl
    | inr hall =>
      exact hall (.marking default) ⟨List.replicate 32 0, rfl⟩ .none .none _
        (moved_nonce_raises _ _ _ _ (List.replicate 12 0) [0] (by decide)
          (.str [115]) .none (.str [49]) (.int 0))

end Suprime
