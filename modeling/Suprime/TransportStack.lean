import Suprime.HostileInput
import Suprime.MultiSend
import Suprime.ParsedJson

namespace Suprime
set_option autoImplicit true

/-- A decorator of a transport, with its keys. -/
inductive Layer
  | secure (clusterKey : Bytes)
  | signed (sk pk : Bytes)
  | encrypted (key : EncryptedTransport.Key)

/-- The decorator works on the fields of the payload, and does not wrap the message. -/
def Layer.marks : Layer → Bool
  | .encrypted _ => false
  | _ => true

/-- The layer of a cluster key, if there is one; `none` stands for the `ValueError` of a key that
does not have 32 bytes. -/
def encryptedLayer : Option Bytes → Option (List Layer)
  | none => some []
  | some key => if h : key.length = 32 then some [.encrypted ⟨key, h⟩] else none

/-- `secure_transport`, from the application's side to the wire's. -/
def secureTransport (sk pk clusterKey : Option Bytes) : Option (List Layer) :=
  (encryptedLayer clusterKey).map (fun t =>
    match sk, pk with
    | some sk, some pk => .signed sk pk :: t
    | _, _ => t)

section
variable {F : Type} [FiniteFloat F] [DecidableEq F]

/-- What a decorator draws for one message: a nonce, the id and the time of an envelope, and what
a parsed message without an id or a time is given. -/
structure Draw (F : Type) [FiniteFloat F] [DecidableEq F] where
  nonce : Bytes
  newId : PyValue F
  now : PyValue F
  size : nonce.length = 12
  native_newId : native newId = true
  native_now : native now = true

/-- What comes next for a message that is handed over. -/
def Received.andThen (r : Received F) (f : Message F → Received F) : Received F :=
  match r with
  | .handed m => f m
  | .dropped => .dropped
  | .raised => .raised

section
variable [UnicodeData] [RationalFloat F]

def Layer.send (h : Hmac) (c : Ed25519) (draw : Draw F) : Layer → Message F → Option (Message F)
  | .secure clusterKey, m => SecureTransport.send h clusterKey m
  | .signed sk pk, m => SignedTransport.send c sk pk m
  | .encrypted key, m => EncryptedTransport.send h key draw.nonce draw.newId draw.now m

def Layer.recv (h : Hmac) (c : Ed25519) (draw : Draw F) : Layer → Message F → Received F
  | .secure clusterKey, m => SecureTransport.recv h clusterKey m
  | .signed _ _, m => SignedTransport.recv c m
  | .encrypted key, m => EncryptedTransport.recv h key draw.newId draw.now m

namespace TransportStack

/-- The message that the innermost transport is given. -/
def send (h : Hmac) (c : Ed25519) : (ℕ → Draw F) → List Layer → Message F → Option (Message F)
  | _, [], m => some m
  | draws, l :: ls, m =>
    (l.send h c (draws 0) m).bind (send h c (fun i => draws (i + 1)) ls)

/-- What becomes of a message that the innermost transport receives. -/
def recv (h : Hmac) (c : Ed25519) : (ℕ → Draw F) → List Layer → Message F → Received F
  | _, [], m => .handed m
  | draws, l :: ls, m =>
    (recv h c (fun i => draws (i + 1)) ls m).andThen (l.recv h c (draws 0))

/-- A message from `send` to the application of the receiver, over a transport that moves
bytes. -/
def transmit (h : Hmac) (c : Ed25519) (draws draws' : ℕ → Draw F) (newId now : PyValue F)
    (ls : List Layer) (m : Message F) : Option (Received F) :=
  (send h c draws ls m).bind (fun sent =>
    (Message.fromBytes newId now sent.toBytes).map (recv h c draws' ls))

/-- Between two decorators that mark the payload there is one that wraps the message. -/
def Separated (ls : List Layer) : Prop := ls.IsChain (fun a b => ¬ (a.marks ∧ b.marks))

instance (ls : List Layer) : Decidable (Separated ls) :=
  inferInstanceAs (Decidable (ls.IsChain _))

/-- The keys of the stack are those of the node that the message is from. -/
def Owned (c : Ed25519) (ls : List Layer) (m : Message F) : Prop :=
  ∀ sk pk, .signed sk pk ∈ ls → pk = c.publickey sk ∧ m.src = .str (c.fingerprint pk)

end TransportStack

end

/-- The payload is a dict without the field `s`. -/
def Message.Lacks (s : PyStr) (m : Message F) : Prop :=
  ∃ d, m.payload = .dict d ∧ PyKey.str s ∉ d.map Prod.fst

/-- The payload is a dict, and no field of it is one of the decorators'. -/
def Message.Unmarked (m : Message F) : Prop := m.Lacks sigField ∧ m.Lacks pkField

section
omit [FiniteFloat F]

theorem native_hexdigest (b : Bytes) : native (.str (hexdigest b) : PyValue F) = true :=
  plain_hexdigest b

end

section
variable [UnicodeData] [RationalFloat F]

section
omit [UnicodeData]

theorem pyDict_of_native {v : PyValue F} {d : List (PyKey F × PyValue F)} (hv : v = .dict d)
    (hd : native (.dict d) = true) : pyDict v = some d := by
  rw [hv, pyDict, dictFrom_of_native hd]

end

section
omit [FiniteFloat F] [UnicodeData] [RationalFloat F]

theorem notMem_without (s : PyStr) (d : List (PyKey F × PyValue F)) :
    PyKey.str s ∉ (without s d).map Prod.fst := by
  intro hmem
  obtain ⟨p, hp, hk⟩ := List.mem_map.1 hmem
  exact of_decide_eq_true (List.mem_filter.1 hp).2 hk

theorem without_assocSet (s : PyStr) (v : PyValue F) (d : List (PyKey F × PyValue F)) :
    without s (assocSet (.str s) v d) = without s d :=
  filter_assocSet_self _ _ _

end

/-- What a decorator that marks the payload does to a message with a native dict: the receiver
never raises, takes its marks off, and hands the message over if it did not have marks before. -/
structure Layer.Marked (h : Hmac) (c : Ed25519) (draw : Draw F) (l : Layer) (m sent : Message F) :
    Prop where
  header : sent.HeaderNative
  src : sent.src = m.src
  dict : ∃ d, sent.payload = .dict d ∧ native (.dict d) = true
  clean : m.Unmarked → l.recv h c draw sent = .handed m
  other : l.recv h c draw sent = .dropped ∨
    ∃ r, l.recv h c draw sent = .handed r ∧ r.Lacks sigField

theorem SecureTransport.marked (h : Hmac) (c : Ed25519) (draw : Draw F) (clusterKey : Bytes)
    {m : Message F} {d : List (PyKey F × PyValue F)} (hm : m.HeaderNative)
    (hd : m.payload = .dict d) (hnative : native (.dict d) = true) :
    ∃ sent, SecureTransport.send h clusterKey m = some sent ∧
      (Layer.secure clusterKey).Marked h c draw m sent := by
  have hsend := SecureTransport.send_eq (pyDict_of_native hd hnative) h clusterKey
  have hself : ({ m with payload := .dict d } : Message F) = m := by
    rw [← hd]
  rw [hself] at hsend
  have hlookup : (assocSet (.str sigField) (.str (sign h clusterKey m)) d).lookup
      (.str sigField) = some (.str (sign h clusterKey m)) := by
    rw [lookup_assocSet, if_pos rfl]
  have hrecv := recv_of_tag h clusterKey
    (m := { m with
      payload := .dict (assocSet (.str sigField) (.str (sign h clusterKey m)) d) })
    rfl hlookup (fun c hc => hexdigest_lt hc)
  rw [without_assocSet] at hrecv
  refine ⟨_, hsend, ⟨hm.type, hm.src, hm.dst, hm.id, hm.ts⟩, rfl, ⟨_, rfl,
    native_assocSet (plain_of_low sigField_fieldName.low) (native_hexdigest _) hnative⟩, ?_, ?_⟩
  · rintro ⟨⟨d', hd', hlacks⟩, _⟩
    cases hd.symm.trans hd'
    rw [without_of_not_mem hlacks, hself, if_pos rfl] at hrecv
    exact hrecv
  · by_cases htag : sign h clusterKey m =
        sign h clusterKey { m with payload := .dict (without sigField d) }
    · rw [if_pos htag] at hrecv
      exact .inr ⟨_, hrecv, _, rfl, notMem_without sigField d⟩
    · rw [if_neg htag] at hrecv
      exact .inl hrecv

theorem SignedTransport.marked (h : Hmac) (c : Ed25519) (draw : Draw F) (sk : Bytes)
    {m : Message F} {d : List (PyKey F × PyValue F)} (hm : m.HeaderNative)
    (hd : m.payload = .dict d) (hnative : native (.dict d) = true)
    (hsrc : m.src = .str (c.fingerprint (c.publickey sk))) :
    ∃ sent, SignedTransport.send c sk (c.publickey sk) m = some sent ∧
      (Layer.signed sk (c.publickey sk)).Marked h c draw m sent := by
  have hdict := pyDict_of_native hd hnative
  have hsend := SignedTransport.send_eq hdict c sk (c.publickey sk)
  have hsize := c.sign_size sk (c.publickey sk)
    (reprSorted { m with payload := .dict (unsigned d) }.toDict)
  have hverify := c.verify_sign sk (reprSorted { m with payload := .dict (unsigned d) }.toDict)
  generalize c.sign sk (c.publickey sk)
    (reprSorted ({ m with payload := .dict (unsigned d) } : Message F).toDict) = sig at *
  have hnodup := nodup_pyDict hdict
  have hsig : (signedDict sig (c.publickey sk) d).lookup (.str sigField) =
      some (.str (hexdigest sig)) := by
    rw [signedDict, lookup_assocSet, if_neg (fun h => absurd (PyKey.str.inj h) (by decide)),
      lookup_assocSet, if_pos rfl]
  have hpk : (signedDict sig (c.publickey sk) d).lookup (.str pkField) =
      some (.str (hexdigest (c.publickey sk))) := by
    rw [signedDict, lookup_assocSet, if_pos rfl]
  have hrest : unsigned (signedDict sig (c.publickey sk) d) = unsigned d := by
    rw [unsigned, signedDict, without_without, without_assocSet, without_without,
      without_assocSet, unsigned]
  have hrecv := recv_of_tags c
    (m := { m with payload := .dict (signedDict sig (c.publickey sk) d) })
    rfl hsig hpk (ne_nil_of_length hsize) (ne_nil_of_length (c.publickey_size sk)) hsrc
    (nodup_number_assocSet (nodup_number_assocSet hnodup))
  rw [hrest] at hrecv
  have hhanded := hrecv.trans (if_pos hverify)
  refine ⟨_, hsend, ⟨hm.type, hm.src, hm.dst, hm.id, hm.ts⟩, rfl, ⟨_, rfl,
    native_assocSet (plain_of_low pkField_fieldName.low) (native_hexdigest _)
      (native_assocSet (plain_of_low sigField_fieldName.low) (native_hexdigest _) hnative)⟩,
    ?_, .inr ⟨_, hhanded, _, rfl, ?_⟩⟩
  · rintro ⟨⟨d₁, hd₁, hsig_lacks⟩, d₂, hd₂, hpk_lacks⟩
    cases hd.symm.trans hd₁
    cases hd.symm.trans hd₂
    rw [unsigned, without_of_not_mem hsig_lacks, without_of_not_mem hpk_lacks, ← hd] at hhanded
    exact hhanded
  · rw [unsigned, without_without]
    exact notMem_without sigField _

/-- What a decorator that wraps the message does: it sends a message without marks, and the
receiver hands over what was wrapped. -/
structure Layer.Wrapped (h : Hmac) (c : Ed25519) (draw : Draw F) (l : Layer) (m sent : Message F) :
    Prop where
  native : sent.Native
  src : sent.src = m.src
  unmarked : sent.Unmarked
  handed : l.recv h c draw sent = .handed m

theorem EncryptedTransport.wrapped (h : Hmac) (c : Ed25519) (draw draw' : Draw F)
    (key : EncryptedTransport.Key) {m : Message F} (hm : m.Native) :
    ∃ sent, EncryptedTransport.send h key draw.nonce draw.newId draw.now m = some sent ∧
      (Layer.encrypted key).Wrapped h c draw' m sent := by
  obtain ⟨ct, henc, -, hdec⟩ :=
    chacha20From_chacha20From key.size draw.size m.toBytes.data.toList 0
  rw [chacha20From_zero] at henc hdec
  have hparse := Message.fromBytes_toBytes m draw'.newId draw'.now
  rw [Message.viaJson_eq_self hm.header hm.payload] at hparse
  have hsend : EncryptedTransport.send h key draw.nonce draw.newId draw.now m =
      some ⟨.str ENVELOPE, m.src, sealed draw.nonce ct (mac h key draw.nonce ct), .none,
        draw.newId, draw.now⟩ := by
    rw [EncryptedTransport.send, henc, Option.map_some]
  have hpayload : native (sealed draw.nonce ct (mac h key draw.nonce ct) : PyValue F) = true := by
    refine native_writeItems (show [nField, ctField, macField].Nodup by decide) ?_
    refine List.forall_mem_cons.2 ⟨⟨show plain nField = true by decide, native_hexdigest _⟩,
      List.forall_mem_cons.2 ⟨⟨show plain ctField = true by decide, native_hexdigest _⟩,
        List.forall_mem_cons.2 ⟨⟨show plain macField = true by decide, native_hexdigest _⟩,
          fun p hp => by cases hp⟩⟩⟩
  have hlacks : ∀ s ∉ [nField, ctField, macField], Message.Lacks s
      (⟨.str ENVELOPE, m.src, sealed draw.nonce ct (mac h key draw.nonce ct), .none,
        draw.newId, draw.now⟩ : Message F) := by
    intro s hs
    refine ⟨_, rfl, ?_⟩
    intro hmem
    obtain ⟨p, hp, hk⟩ := List.mem_map.1 hmem
    obtain ⟨q, hq, rfl⟩ := List.mem_map.1 hp
    rw [← PyKey.str.inj hk] at hs
    exact hs (List.mem_map_of_mem (f := Prod.fst) hq)
  refine ⟨_, hsend, ⟨⟨show plain ENVELOPE = true by decide, hm.header.src, rfl,
    draw.native_newId, draw.native_now⟩, hpayload⟩, rfl,
    ⟨hlacks _ (by decide), hlacks _ (by decide)⟩, ?_⟩
  rw [Layer.recv, EncryptedTransport.recv_sealed h key hdec, Array.toArray_toList, hparse]

namespace Layer

variable {h : Hmac} {c : Ed25519}

theorem recv_of_lacks {l : Layer} (hl : l.marks = true) (draw : Draw F) {m : Message F}
    (hm : m.Lacks sigField) : l.recv h c draw m = .dropped := by
  obtain ⟨d, hd, hlacks⟩ := hm
  have hnone : d.lookup (.str sigField) = none := lookup_eq_none_of_not_mem hlacks
  cases l with
  | secure clusterKey => simp only [recv, SecureTransport.recv, hd, hnone]
  | signed sk pk =>
    apply SignedTransport.recv_of_missing c hd
    rw [hnone]
    rfl
  | encrypted key => cases hl

theorem exists_marked {l : Layer} (hl : l.marks = true) (draw draw' : Draw F) {m : Message F}
    (hm : m.Native) (hd : ∃ d, m.payload = .dict d)
    (hown : TransportStack.Owned c (l :: ls) m) :
    ∃ sent, l.send h c draw m = some sent ∧ l.Marked h c draw' m sent := by
  obtain ⟨d, hd⟩ := hd
  have hnative : native (.dict d) = true := hd ▸ hm.payload
  cases l with
  | secure clusterKey => exact SecureTransport.marked h c draw' clusterKey hm.header hd hnative
  | signed sk pk =>
    obtain ⟨rfl, hsrc⟩ := hown sk pk List.mem_cons_self
    exact SignedTransport.marked h c draw' sk hm.header hd hnative hsrc
  | encrypted key => cases hl

theorem exists_wrapped {l : Layer} (hl : l.marks = false) (draw draw' : Draw F) {m : Message F}
    (hm : m.Native) : ∃ sent, l.send h c draw m = some sent ∧ l.Wrapped h c draw' m sent := by
  cases l with
  | encrypted key => exact EncryptedTransport.wrapped h c draw draw' key hm
  | _ => cases hl

theorem Marked.native {l : Layer} {draw : Draw F} {m sent : Message F}
    (hs : l.Marked h c draw m sent) : sent.Native := by
  obtain ⟨d, hd, hnative⟩ := hs.dict
  exact ⟨hs.header, hd ▸ hnative⟩

end Layer

namespace TransportStack

variable {h : Hmac} {c : Ed25519}

section
omit [FiniteFloat F] [UnicodeData] [RationalFloat F] [DecidableEq F]

theorem Owned.tail {m sent : Message F} (hown : Owned c (l :: ls) m) (hsrc : sent.src = m.src) :
    Owned c ls sent := by
  intro sk pk hmem
  rw [hsrc]
  exact hown sk pk (List.mem_cons_of_mem _ hmem)

end

theorem handed_of_separated {ls : List Layer} (draws draws' : ℕ → Draw F) {m : Message F}
    (hsep : Separated ls) (hm : m.Native) (hown : Owned c ls m)
    (hclean : ∀ l ∈ ls.head?, l.marks = true → m.Unmarked) :
    ∃ sent, send h c draws ls m = some sent ∧ sent.Native ∧
      recv h c draws' ls sent = .handed m := by
  induction ls generalizing draws draws' m with
  | nil => exact ⟨m, rfl, hm, rfl⟩
  | cons l ls ih =>
    cases hl : l.marks with
    | true =>
      have hun := hclean l rfl hl
      obtain ⟨⟨d, hd, _⟩, _⟩ := id hun
      obtain ⟨sent₁, hsend, hmarked⟩ :=
        l.exists_marked (h := h) hl (draws 0) (draws' 0) hm ⟨d, hd⟩ hown
      obtain ⟨sent, hrest, hnative, hrecv⟩ := ih (fun i => draws (i + 1))
        (fun i => draws' (i + 1)) hsep.tail hmarked.native (hown.tail hmarked.src) (by
          intro l' hl' hmarks
          exact absurd ⟨hl, hmarks⟩ ((List.isChain_cons.1 hsep).1 l' hl'))
      refine ⟨sent, ?_, hnative, ?_⟩
      · rw [send, hsend, Option.bind_some, hrest]
      · rw [recv, hrecv, Received.andThen, hmarked.clean hun]
    | false =>
      obtain ⟨sent₁, hsend, hwrapped⟩ := l.exists_wrapped (h := h) (c := c) hl (draws 0)
        (draws' 0) hm
      obtain ⟨sent, hrest, hnative, hrecv⟩ := ih (fun i => draws (i + 1))
        (fun i => draws' (i + 1)) hsep.tail hwrapped.native (hown.tail hwrapped.src)
        (fun _ _ _ => hwrapped.unmarked)
      refine ⟨sent, ?_, hnative, ?_⟩
      · rw [send, hsend, Option.bind_some, hrest]
      · rw [recv, hrecv, Received.andThen, hwrapped.handed]

theorem dropped_of_not_separated {ls : List Layer} (draws draws' : ℕ → Draw F) {m : Message F}
    (hsep : ¬ Separated ls) (hm : m.Native) (hown : Owned c ls m)
    (hd : ∃ d, m.payload = .dict d) :
    ∃ sent, send h c draws ls m = some sent ∧ sent.Native ∧
      recv h c draws' ls sent = .dropped := by
  induction ls generalizing draws draws' m with
  | nil => exact absurd List.isChain_nil hsep
  | cons l ls ih =>
    have hpass : ∀ sent₁, l.send h c (draws 0) m = some sent₁ → sent₁.Native →
        sent₁.src = m.src → (∃ d, sent₁.payload = .dict d) → ¬ Separated ls →
        ∃ sent, send h c draws (l :: ls) m = some sent ∧ sent.Native ∧
          recv h c draws' (l :: ls) sent = .dropped := by
      intro sent₁ hsend hnative₁ hsrc hdict hrest
      obtain ⟨sent, hsend', hnative, hrecv⟩ := ih (fun i => draws (i + 1))
        (fun i => draws' (i + 1)) hrest hnative₁ (hown.tail hsrc) hdict
      refine ⟨sent, ?_, hnative, ?_⟩
      · rw [send, hsend, Option.bind_some, hsend']
      · rw [recv, hrecv, Received.andThen]
    cases hl : l.marks with
    | false =>
      obtain ⟨sent₁, hsend, hwrapped⟩ := l.exists_wrapped (h := h) (c := c) hl (draws 0)
        (draws' 0) hm
      obtain ⟨⟨d, hd, _⟩, _⟩ := hwrapped.unmarked
      refine hpass sent₁ hsend hwrapped.native hwrapped.src ⟨d, hd⟩ (fun hrest => hsep ?_)
      refine List.isChain_cons.2 ⟨fun l' _ hmarks => ?_, hrest⟩
      exact Bool.false_ne_true (hl.symm.trans hmarks.1)
    | true =>
      obtain ⟨sent₁, hsend, hmarked⟩ :=
        l.exists_marked (h := h) hl (draws 0) (draws' 0) hm hd hown
      obtain ⟨d, hd₁, _⟩ := hmarked.dict
      by_cases hrest : Separated ls
      · have hhead : ∃ l' ls', ls = l' :: ls' ∧ l'.marks = true := by
          by_contra hno
          refine hsep (List.isChain_cons.2 ⟨fun l' hl' hmarks => hno ?_, hrest⟩)
          exact ⟨l', ls.tail, List.eq_cons_of_mem_head? hl', hmarks.2⟩
        obtain ⟨l', ls', rfl, hl'⟩ := hhead
        have htail : Separated ls' := hrest.tail
        obtain ⟨sent₂, hsend₂, hmarked₂⟩ := l'.exists_marked (h := h) hl' (draws 1) (draws' 1)
          hmarked.native ⟨d, hd₁⟩ (hown.tail hmarked.src)
        obtain ⟨sent, hsend', hnative, hrecv⟩ := handed_of_separated (h := h) (c := c)
          (fun i => draws (i + 1 + 1)) (fun i => draws' (i + 1 + 1)) htail hmarked₂.native
          ((hown.tail hmarked.src).tail hmarked₂.src) (by
            intro l₃ hl₃ hmarks
            exact absurd ⟨hl', hmarks⟩ ((List.isChain_cons.1 hrest).1 l₃ hl₃))
        refine ⟨sent, ?_, hnative, ?_⟩
        · rw [send, hsend, Option.bind_some, send, hsend₂, Option.bind_some, hsend']
        · rw [recv, recv, hrecv, Received.andThen]
          rcases hmarked₂.other with hdrop | ⟨r, hhanded, hlacks⟩
          · rw [hdrop, Received.andThen]
          · rw [hhanded, Received.andThen, l.recv_of_lacks hl _ hlacks]
      · exact hpass sent₁ hsend hmarked.native hmarked.src ⟨d, hd₁⟩ hrest

section
omit [UnicodeData]

theorem separated_secureTransport {sk pk clusterKey : Option Bytes}
    (h : secureTransport sk pk clusterKey = some ls) : Separated ls := by
  obtain ⟨encrypted, hkey, hls⟩ := Option.map_eq_some_iff.1 h
  have hencrypted : Separated encrypted ∧ ∀ l ∈ encrypted, l.marks = false := by
    cases clusterKey with
    | none =>
      cases hkey
      exact ⟨List.isChain_nil, fun l hl => by cases hl⟩
    | some k =>
      obtain ⟨_, hkey⟩ := Option.dite_none_right_eq_some.1 hkey
      cases hkey
      exact ⟨List.isChain_singleton _, fun l hl => by rw [List.mem_singleton.1 hl]; rfl⟩
  obtain ⟨hsep, hmarks⟩ := hencrypted
  have hcons : ∀ sk pk, Separated (.signed sk pk :: encrypted) := fun sk pk =>
    List.isChain_cons.2 ⟨fun l hl hboth =>
      Bool.false_ne_true ((hmarks l (List.mem_of_mem_head? hl)).symm.trans hboth.2), hsep⟩
  cases sk with
  | none =>
    cases hls
    exact hsep
  | some sk =>
    cases pk with
    | none =>
      cases hls
      exact hsep
    | some pk =>
      cases hls
      exact hcons sk pk

end

/-- A stack hands over every message that has no marks of its own exactly when its marks are
separated by wrappers, and else drops it. The stacks of `secure_transport` are. -/
theorem stack_hands_over_iff (h : Hmac) (c : Ed25519) :
    (∀ (ls : List Layer) (draws draws' : ℕ → Draw F) (newId now : PyValue F) (m : Message F),
      m.Native → m.Unmarked → Owned c ls m →
      transmit h c draws draws' newId now ls m =
        some (if Separated ls then .handed m else .dropped)) ∧
    ∀ sk pk clusterKey ls, secureTransport sk pk clusterKey = some ls → Separated ls := by
  refine ⟨?_, fun _ _ _ _ => separated_secureTransport⟩
  intro ls draws draws' newId now m hm hun hown
  by_cases hsep : Separated ls
  · obtain ⟨sent, hsend, hnative, hrecv⟩ :=
      handed_of_separated (h := h) draws draws' hsep hm hown (fun _ _ _ => hun)
    rw [transmit, hsend, Option.bind_some, Message.fromBytes_toBytes_native hnative,
      Option.map_some, hrecv, if_pos hsep]
  · obtain ⟨d, hd, _⟩ := hun.1
    obtain ⟨sent, hsend, hnative, hrecv⟩ :=
      dropped_of_not_separated (h := h) draws draws' hsep hm hown ⟨d, hd⟩
    rw [transmit, hsend, Option.bind_some, Message.fromBytes_toBytes_native hnative,
      Option.map_some, hrecv, if_neg hsep]

end TransportStack

end

end

namespace TransportStack

/-- A node whose signatures tell no texts apart, and a message of it. -/
def plainKeys : Ed25519 := .marking default

def plainDraw : Draw ℕ where
  nonce := List.replicate 12 5
  newId := .none
  now := .none
  size := rfl
  native_newId := rfl
  native_now := rfl

def plainChat : Message ℕ :=
  { sealedSample with src := .str (plainKeys.fingerprint (plainKeys.publickey [])) }

theorem native_plainChat [UnicodeData] : plainChat.Native :=
  ⟨⟨show native sealedSample.type = true by decide, SignedTransport.plain_fingerprint _ _,
    show native sealedSample.dst = true by decide, show native sealedSample.id = true by decide,
    show native sealedSample.ts = true by decide⟩,
    show native sealedSample.payload = true by decide⟩

theorem unmarked_plainChat : plainChat.Unmarked := ⟨⟨_, rfl, by decide⟩, _, rfl, by decide⟩

theorem stack_hands_over_iff_of_plainChat : ∃ _ : UnicodeData,
    (∃ ls, secureTransport (some []) (some (plainKeys.publickey [])) (some (List.replicate 32 7)) =
        some ls ∧
      transmit (.marking default) plainKeys (fun _ => plainDraw) (fun _ => plainDraw) .none .none ls
        plainChat = some (.handed plainChat)) ∧
    transmit (.marking default) plainKeys (fun _ => plainDraw) (fun _ => plainDraw) .none .none
      [.secure [], .signed [] (plainKeys.publickey [])] plainChat = some .dropped := by
  have data : UnicodeData := ⟨fun _ => false, fun _ _ => rfl, fun _ _ => rfl⟩
  obtain ⟨hall, hsecure⟩ := stack_hands_over_iff (F := ℕ) (.marking default) plainKeys
  have howned : ∀ l, (∀ sk pk, l ≠ .signed sk pk) →
      Owned plainKeys [.signed [] (plainKeys.publickey []), l] plainChat := by
    intro l hl sk pk hmem
    rcases List.mem_cons.1 hmem with heq | hmem
    · cases heq
      exact ⟨rfl, rfl⟩
    · exact absurd (List.mem_singleton.1 hmem).symm (hl sk pk)
  have hkey : secureTransport (some []) (some (plainKeys.publickey []))
      (some (List.replicate 32 7)) = some [.signed [] (plainKeys.publickey []),
        .encrypted ⟨List.replicate 32 7, rfl⟩] := rfl
  refine ⟨data, ⟨_, hkey, ?_⟩, ?_⟩
  · rw [hall _ _ _ _ _ plainChat native_plainChat unmarked_plainChat
      (howned _ (fun _ _ h => by cases h)), if_pos (hsecure _ _ _ _ hkey)]
  · have howned' : Owned plainKeys [.secure [], .signed [] (plainKeys.publickey [])] plainChat :=
      fun sk pk hmem => howned (.secure []) (fun _ _ h => by cases h) sk pk
        ((List.Perm.swap _ _ []).mem_iff.1 hmem)
    rw [hall _ _ _ _ _ plainChat native_plainChat unmarked_plainChat howned', if_neg (by decide)]

end TransportStack

end Suprime
