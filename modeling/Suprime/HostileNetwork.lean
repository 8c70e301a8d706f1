import Suprime.Run
import Suprime.TransportStack

namespace Suprime
set_option autoImplicit true

section
variable {F : Type} [UnicodeData] [FiniteFloat F] [DecidableEq F] [RationalFloat F]

namespace Layer

/-- The text that a decorator authenticates when it sends a message. -/
def text (draw : Draw F) : Layer → Message F → Option ByteArray
  | .secure _, m =>
    (pyDict m.payload).map (fun d => reprSorted { m with payload := .dict d }.toDict)
  | .signed _ _, m => SignedTransport.canonical m
  | .encrypted key, m =>
    (chacha20 key.bytes draw.nonce m.toBytes.data.toList).map (fun ct =>
      ⟨(draw.nonce ++ ct).toArray⟩)

/-- The text that a decorator recomputes from a message, to check what the message bears. -/
def recomputed : Layer → Message F → Option ByteArray
  | .secure _, m =>
    match m.payload with
    | .dict d => some (reprSorted { m with payload := .dict (without sigField d) }.toDict)
    | _ => none
  | .signed _ _, m =>
    match m.payload with
    | .dict d => SignedTransport.canonical { m with
        payload := .dict (without pkField (without sigField d)) }
    | _ => none
  | .encrypted _, m =>
    match EncryptedTransport.hexField EncryptedTransport.nField m.payload,
      EncryptedTransport.hexField EncryptedTransport.ctField m.payload with
    | .ok nonce, .ok ct => some ⟨(nonce ++ ct).toArray⟩
    | _, _ => none

/-- What the application of the receiver should see of a message. -/
def shows : Layer → Message F → Option (Message F)
  | .secure _, m => (pyDict m.payload).map (fun d => { m with payload := .dict d })
  | .signed _ _, m =>
    (pyDict m.payload).map (fun d => { m with payload := .dict (SignedTransport.unsigned d) })
  | .encrypted _, m => some m.viaJson

/-- The message carries what authenticates the text under the decorator's key, or under the key in
the message itself if that key is the one of the source. -/
def Bears (h : Hmac) (c : Ed25519) (m : Message F) (text : ByteArray) : Layer → Prop
  | .secure key => ∃ d, m.payload = .dict d ∧
    d.lookup (.str sigField) = some (.str (hexdigest (h.digest key text)))
  | .signed _ _ => ∃ d p s pk sig, m.payload = .dict d ∧
    d.lookup (.str pkField) = some (.str p) ∧ d.lookup (.str sigField) = some (.str s) ∧
    SignedTransport.fromHex p = some pk ∧ SignedTransport.fromHex s = some sig ∧
    m.src = .str (c.fingerprint pk) ∧ c.verify pk text sig = true
  | .encrypted key => EncryptedTransport.field EncryptedTransport.macField m.payload =
    .ok (.str (hexdigest (h.digest key.bytes text)))

/-- A node with the second decorator is one that the message claims to be from, for a receiver with
the first: it has the shared key, or the key whose fingerprint is the source. -/
def Claims (c : Ed25519) (m : Message F) : Layer → Layer → Prop
  | .secure key, .secure key' => key = key'
  | .signed _ _, .signed _ pk => m.src = .str (c.fingerprint pk)
  | .encrypted key, .encrypted key' => key = key'
  | _, _ => False

end Layer

/-- The keys of the payload, if it is a dict, are pairwise different, also as numbers. -/
def Message.Keyed (m : Message F) : Prop :=
  ∀ d, m.payload = .dict d → (d.map (fun p => p.1.number)).Nodup

section
omit [UnicodeData]

theorem Message.keyed_of_fromBytes {m : Message F} {newId now : PyValue F}
    (h : Message.fromBytes newId now raw = some m) : m.Keyed := by
  intro d hd
  have hnative := native_payload_of_fromBytes h
  rw [hd] at hnative
  rw [← dictFrom_of_native hnative]
  exact nodup_dictFrom d

end

section
omit [UnicodeData] [FiniteFloat F] [DecidableEq F] [RationalFloat F]

theorem SecureTransport.eq_of_compareDigest {sig : PyValue F} {expected : PyStr}
    (hc : compareDigest sig expected = some true) : sig = .str expected := by
  cases sig with
  | str s =>
    rw [compareDigest] at hc
    split at hc
    · rw [of_decide_eq_true (Option.some.inj hc)]
    · cases hc
  | _ => cases hc

end

section
omit [RationalFloat F]

theorem SecureTransport.recv_eq_handed {h : Hmac} {key : Bytes} {m r : Message F}
    (hr : SecureTransport.recv h key m = .handed r) : ∃ d, m.payload = .dict d ∧
      d.lookup (.str sigField) = some (.str (sign h key r)) ∧
      r = { m with payload := .dict (without sigField d) } := by
  cases hm : m.payload with
  | dict d =>
    refine ⟨d, rfl, ?_⟩
    simp only [recv, hm] at hr
    split at hr
    · cases hr
    · cases hr
    · rename_i sig _ hsig
      split at hr
      · cases hr
      · cases hr
      · rename_i hc
        cases hr
        rw [hsig, eq_of_compareDigest hc]
        exact ⟨rfl, rfl⟩
  | _ =>
    simp only [recv, hm] at hr
    cases hr

end

theorem SignedTransport.recv_eq_handed {c : Ed25519} {m r : Message F} (hkeyed : m.Keyed)
    (hr : SignedTransport.recv c m = .handed r) :
    ∃ d p s pk sig, m.payload = .dict d ∧ d.lookup (.str pkField) = some (.str p) ∧
      d.lookup (.str sigField) = some (.str s) ∧ fromHex p = some pk ∧ fromHex s = some sig ∧
      m.src = .str (c.fingerprint pk) ∧ canonical r = some (reprSorted r.toDict) ∧
      c.verify pk (reprSorted r.toDict) sig = true ∧
      r = { m with payload := .dict (unsigned d) } := by
  cases hm : m.payload with
  | dict d =>
    have hcanon := canonical_dict (m := { m with payload := .dict (unsigned d) }) rfl
      (nodup_unsigned (hkeyed d hm))
    rw [unsigned_idem, unsigned] at hcanon
    simp only [recv, hm] at hr
    split at hr
    · cases hr
    · split at hr
      · rename_i p s hp hs
        split at hr
        · rename_i pk sig hpk hsig
          split at hr
          · rename_i hsrc
            rw [hcanon] at hr
            dsimp only at hr
            split at hr
            · rename_i hverify
              cases hr
              exact ⟨d, p, s, pk, sig, rfl, hp, hs, hpk, hsig,
                (EncryptedTransport.isStr_iff _).1 hsrc, hcanon, hverify, rfl⟩
            · cases hr
          · cases hr
        · cases hr
      · split at hr
        · cases hr
        · cases hr
      · cases hr
  | _ =>
    simp only [recv, hm] at hr
    cases hr

section
omit [UnicodeData] [RationalFloat F]

theorem EncryptedTransport.recv_eq_handed {h : Hmac} {key : Key} {newId now : PyValue F}
    {m r : Message F} (hr : EncryptedTransport.recv h key newId now m = .handed r) :
    ∃ nonce ct plaintext, hexField nField m.payload = .ok nonce ∧
      hexField ctField m.payload = .ok ct ∧
      field macField m.payload = .ok (.str (mac h key nonce ct)) ∧
      chacha20 key.bytes nonce ct = some plaintext ∧
      Message.fromBytes newId now ⟨plaintext.toArray⟩ = some r := by
  rw [recv] at hr
  split at hr
  · split at hr
    · cases hr
    · cases hr
    · rename_i nonce hnonce
      split at hr
      · cases hr
      · cases hr
      · rename_i ct hct
        split at hr
        · cases hr
        · cases hr
        · rename_i tag htag
          rw [openEnvelope] at hr
          split at hr
          · cases hr
          · cases hr
          · rename_i hc
            split at hr
            · cases hr
            · rename_i plaintext hplain
              split at hr
              · cases hr
              · rename_i inner hinner
                cases hr
                rw [htag, SecureTransport.eq_of_compareDigest hc]
                exact ⟨nonce, ct, plaintext, hnonce, hct, rfl, hplain, hinner⟩
  · cases hr

end

namespace Layer

/-- A decorator hands over what the text that it has recomputed says: whoever authenticated that
text sent what is handed over. -/
structure Checks (h : Hmac) (c : Ed25519) (l : Layer) (m r : Message F) (text : ByteArray) :
    Prop where
  recomputed : l.recomputed m = some text
  bears : l.Bears h c m text
  claims : ∀ l', Claims c r l l' ↔ Claims c m l l'
  shows : ∀ l' draw m', Claims c m l l' → l'.text draw m' = some text → l.shows m' = some r

theorem checks_secure {h : Hmac} {c : Ed25519} {key : Bytes} {m r : Message F}
    (hr : SecureTransport.recv h key m = .handed r) :
    (Layer.secure key).Checks h c m r (reprSorted r.toDict) := by
  obtain ⟨d, hd, htag, rfl⟩ := SecureTransport.recv_eq_handed hr
  refine ⟨?_, ⟨d, hd, htag⟩, fun l' => by cases l' <;> exact Iff.rfl, ?_⟩
  · rw [Layer.recomputed, hd]
  intro l' draw m' hclaims htext
  cases l' with
  | secure key' =>
    obtain ⟨d', hd', hsame⟩ := Option.map_eq_some_iff.1 htext
    rw [Layer.shows, hd', Option.map_some, Message.eq_of_reprSorted hsame]
  | _ => cases hclaims

theorem checks_signed {h : Hmac} {c : Ed25519} {sk pk : Bytes} {m r : Message F}
    (hkeyed : m.Keyed) (hr : SignedTransport.recv c m = .handed r) :
    (Layer.signed sk pk).Checks h c m r (reprSorted r.toDict) := by
  obtain ⟨d, p, s, pk', sig, hd, hp, hs, hpk, hsig, hsrc, hcanon, hverify, rfl⟩ :=
    SignedTransport.recv_eq_handed hkeyed hr
  refine ⟨?_, ⟨d, p, s, pk', sig, hd, hp, hs, hpk, hsig, hsrc, hverify⟩,
    fun l' => by cases l' <;> exact Iff.rfl, ?_⟩
  · rw [Layer.recomputed, hd]
    exact hcanon
  intro l' draw m' hclaims htext
  cases l' with
  | signed sk' pk'' =>
    obtain ⟨d', hd', hsame⟩ := Option.map_eq_some_iff.1 htext
    rw [Layer.shows, hd', Option.map_some]
    exact congrArg some (Message.eq_of_reprSorted hsame)
  | _ => cases hclaims

/-- The tag does not say where the nonce ends, but a nonce has twelve bytes. -/
theorem checks_encrypted {h : Hmac} {c : Ed25519} {key : EncryptedTransport.Key}
    {newId now : PyValue F} {m r : Message F}
    (hr : EncryptedTransport.recv h key newId now m = .handed r) :
    ∃ text, (Layer.encrypted key).Checks h c m r text := by
  obtain ⟨nonce, ct, plaintext, hnonce, hct, htag, hplain, hinner⟩ :=
    EncryptedTransport.recv_eq_handed hr
  refine ⟨⟨(nonce ++ ct).toArray⟩, ?_, htag, fun l' => by cases l' <;> exact Iff.rfl, ?_⟩
  · rw [Layer.recomputed, hnonce, hct]
  intro l' draw m' hclaims htext
  cases l' with
  | encrypted key' =>
    cases hclaims
    obtain ⟨ct', hct', hsame⟩ := Option.map_eq_some_iff.1 htext
    have hlist : draw.nonce ++ ct' = nonce ++ ct := congrArg (fun b => b.data.toList) hsame
    have hsize := ((isSome_chacha20_iff key.bytes nonce ct).1 (by rw [hplain]; rfl)).2
    obtain ⟨rfl, rfl⟩ := List.append_inj hlist (draw.size.trans hsize.symm)
    obtain ⟨ct'', henc, -, hdec⟩ :=
      chacha20From_chacha20From key.size draw.size m'.toBytes.data.toList 0
    rw [chacha20From_zero] at henc hdec
    cases hct'.symm.trans henc
    cases hplain.symm.trans hdec
    rw [Array.toArray_toList, Message.fromBytes_toBytes] at hinner
    exact hinner
  | _ => cases hclaims

end Layer

/-- A message that was given to the transport of a node. -/
structure SentMessage (ν F : Type) [FiniteFloat F] [DecidableEq F] where
  node : ν
  message : Message F
  draw : Draw F

/-- The decorators of a node, the outermost one apart. -/
structure Station where
  top : Layer
  below : List Layer

/-- Nodes on a wire that somebody else controls: what the nodes have authenticated, and what was
handed to their applications. -/
structure HostileNet (ν F : Type) [FiniteFloat F] [DecidableEq F] where
  sent : List (SentMessage ν F)
  handed : List (ν × Message F)

/-- A node sends a message, or bytes of whatever origin reach a node. -/
inductive HostileAction (ν F : Type) [FiniteFloat F] [DecidableEq F]
  | send (n : ν) (m : Message F) (draw : Draw F)
  | deliver (n : ν) (raw : ByteArray) (newId now : PyValue F) (draws : ℕ → Draw F)

namespace HostileNet

variable {ν : Type} (h : Hmac) (c : Ed25519) (config : ν → Station)

def init : HostileNet ν F := ⟨[], []⟩

/-- The message that the outermost decorator of a node is given of some bytes. -/
def presented (n : ν) (raw : ByteArray) (newId now : PyValue F) (draws : ℕ → Draw F) :
    Option (Received F) :=
  (Message.fromBytes newId now raw).map
    (TransportStack.recv h c (fun i => draws (i + 1)) (config n).below)

/-- The bytes that a send puts on the wire are not kept: the wire delivers any bytes. -/
def step (s : HostileNet ν F) : HostileAction ν F → Option (HostileNet ν F)
  | .send n m draw =>
    ((config n).top.send h c draw m).map (fun _ => { s with sent := s.sent ++ [⟨n, m, draw⟩] })
  | .deliver n raw newId now draws =>
    match (Message.fromBytes newId now raw).map
      (TransportStack.recv h c draws ((config n).top :: (config n).below)) with
    | some (.handed m) => some { s with handed := s.handed ++ [(n, m)] }
    | _ => some s

/-- If what a message bears is right for the text that the receiver recomputes, a node that the
message claims to be from has authenticated that text. -/
def Unforged (s : HostileNet ν F) : HostileAction ν F → Prop
  | .send _ _ _ => True
  | .deliver n raw newId now draws => ∀ m text,
    presented h c config n raw newId now draws = some (.handed m) →
    (config n).top.recomputed m = some text → (config n).top.Bears h c m text →
    (∃ k, Layer.Claims c m (config n).top (config k).top) →
    ∃ e ∈ s.sent, Layer.Claims c m (config n).top (config e.node).top ∧
      (config e.node).top.text e.draw e.message = some text

variable {h c config}

section
omit [UnicodeData] [FiniteFloat F] [DecidableEq F] [RationalFloat F]

theorem andThen_eq_handed {r : Received F} {f : Message F → Received F} {m' : Message F}
    (hr : r.andThen f = .handed m') : ∃ m, r = .handed m ∧ f m = .handed m' := by
  cases r with
  | handed m => exact ⟨m, rfl, hr⟩
  | dropped => cases hr
  | raised => cases hr

end

theorem keyed_recv {draws : ℕ → Draw F} {ls : List Layer} {m r : Message F} (hm : m.Keyed)
    (hr : TransportStack.recv h c draws ls m = .handed r) : r.Keyed := by
  induction ls generalizing draws r with
  | nil =>
    cases hr
    exact hm
  | cons l ls ih =>
    obtain ⟨m₁, hm₁, hr⟩ := andThen_eq_handed hr
    have hkeyed := ih hm₁
    cases l with
    | secure key =>
      obtain ⟨d, hd, _, rfl⟩ := SecureTransport.recv_eq_handed hr
      intro d' hd'
      cases hd'
      exact (List.filter_sublist.map _).nodup (hkeyed d hd)
    | signed sk pk =>
      obtain ⟨d, _, _, _, _, hd, _, _, _, _, _, _, _, rfl⟩ :=
        SignedTransport.recv_eq_handed hkeyed hr
      intro d' hd'
      cases hd'
      exact SignedTransport.nodup_unsigned (hkeyed d hd)
    | encrypted key =>
      obtain ⟨_, _, _, _, _, _, _, hinner⟩ := EncryptedTransport.recv_eq_handed hr
      exact Message.keyed_of_fromBytes hinner

/-- What a node hands over, the message that its outermost decorator was given for it, and the text
that was checked. -/
theorem exists_presented {n : ν} {raw : ByteArray} {newId now : PyValue F} {draws : ℕ → Draw F}
    {r : Message F} (hr : (Message.fromBytes newId now raw).map
      (TransportStack.recv h c draws ((config n).top :: (config n).below)) = some (.handed r)) :
    ∃ m text, presented h c config n raw newId now draws = some (.handed m) ∧
      (config n).top.Checks h c m r text := by
  obtain ⟨m₀, hparse, hr⟩ := Option.map_eq_some_iff.1 hr
  obtain ⟨m, hm, hr⟩ := andThen_eq_handed hr
  have hkeyed := keyed_recv (Message.keyed_of_fromBytes hparse) hm
  have hpresented : presented h c config n raw newId now draws = some (.handed m) := by
    rw [presented, hparse, Option.map_some, hm]
  refine ⟨m, ?_⟩
  cases htop : (config n).top with
  | secure key =>
    rw [htop] at hr
    exact ⟨_, hpresented, Layer.checks_secure hr⟩
  | signed sk pk =>
    rw [htop] at hr
    exact ⟨_, hpresented, Layer.checks_signed hkeyed hr⟩
  | encrypted key =>
    rw [htop] at hr
    obtain ⟨text, hchecks⟩ := Layer.checks_encrypted (c := c) hr
    exact ⟨text, hpresented, hchecks⟩

/-- What was handed over under a claim was sent by a node that the claim is about. -/
def Genuine (c : Ed25519) (config : ν → Station) (s : HostileNet ν F) : Prop :=
  ∀ n r, (n, r) ∈ s.handed → (∃ k, Layer.Claims c r (config n).top (config k).top) →
    ∃ e ∈ s.sent, Layer.Claims c r (config n).top (config e.node).top ∧
      (config n).top.shows e.message = some r

theorem Genuine.step {s s' : HostileNet ν F} (hs : s.Genuine c config)
    (hunforged : s.Unforged h c config a) (hstep : s.step h c config a = some s') :
    s'.Genuine c config := by
  cases a with
  | send n m draw =>
    obtain ⟨_, _, hs'⟩ := Option.map_eq_some_iff.1 hstep
    cases hs'
    intro k r hmem hclaims
    obtain ⟨e, he, hshown⟩ := hs k r hmem hclaims
    exact ⟨e, List.mem_append_left _ he, hshown⟩
  | deliver n raw newId now draws =>
    rw [HostileNet.step] at hstep
    split at hstep
    · rename_i r hr
      cases hstep
      intro k r' hmem hclaims
      rcases List.mem_append.1 hmem with hmem | hmem
      · exact hs k r' hmem hclaims
      · cases List.mem_singleton.1 hmem
        obtain ⟨m, text, hpresented, hchecks⟩ := exists_presented hr
        obtain ⟨k, hk⟩ := hclaims
        obtain ⟨e, he, hclaims, htext⟩ :=
          hunforged m text hpresented hchecks.recomputed hchecks.bears ⟨k, (hchecks.claims _).1 hk⟩
        exact ⟨e, he, (hchecks.claims _).2 hclaims, hchecks.shows _ _ _ hclaims htext⟩
    · cases hstep
      exact hs

/-- Whoever controls the wire, and whatever decorators a node has below, what its outermost
decorator hands to the application is, in every field, what a node with the shared key sent, or
with signatures the node whose fingerprint is the source. -/
theorem handed_message_is_genuine {s : HostileNet ν F}
    (hrun : Run (step h c config) init past s)
    (hunforged : ∀ p ∈ past, Unforged h c config p.1 p.2) (hhanded : (n, r) ∈ s.handed)
    (hclaims : ∃ k, Layer.Claims c r (config n).top (config k).top) :
    ∃ e ∈ s.sent, Layer.Claims c r (config n).top (config e.node).top ∧
      (config n).top.shows e.message = some r :=
  hrun.invariant (I := Genuine c config) hunforged (fun _ _ hmem => by cases hmem)
    (fun _ _ _ hs hC hstep => hs.step hC hstep) n r hhanded hclaims

end HostileNet

end

namespace HostileNet
open TransportStack

def sharedKey (_ : Bool) : Station := ⟨.secure [], []⟩

theorem handed_message_is_genuine_of_sharedKey : ∃ (_ : UnicodeData) (h : Hmac) (past : _)
    (s : HostileNet Bool ℕ), Run (step h plainKeys sharedKey) init past s ∧
      (true, plainChat) ∈ s.handed ∧
      ∃ e ∈ s.sent, (Layer.secure []).shows e.message = some plainChat := by
  have data : UnicodeData := ⟨fun _ => false, fun _ _ => rfl, fun _ _ => rfl⟩
  let h := Hmac.marking (reprSorted plainChat.toDict)
  obtain ⟨sent, hsend, hmarked⟩ := SecureTransport.marked h plainKeys
    plainDraw [] native_plainChat.header rfl native_plainChat.payload
  have hrecv := hmarked.clean unmarked_plainChat
  have hraw := Message.fromBytes_toBytes_native hmarked.native .none .none
  let s₁ : HostileNet Bool ℕ :=
    ⟨[⟨false, plainChat, plainDraw⟩], []⟩
  let s₂ : HostileNet Bool ℕ := ⟨s₁.sent, [(true, plainChat)]⟩
  have hfirst : step h plainKeys sharedKey init
      (.send false plainChat plainDraw) = some s₁ := by
    have hsent : (sharedKey false).top.send h plainKeys plainDraw plainChat = some sent := hsend
    rw [HostileNet.step, hsent]
    rfl
  have hsecond : step h plainKeys sharedKey s₁
      (.deliver true sent.toBytes .none .none (fun _ => plainDraw)) = some s₂ := by
    have hhanded : (Message.fromBytes .none .none sent.toBytes).map (TransportStack.recv h
        plainKeys (fun _ => plainDraw) [.secure []]) = some (.handed plainChat) := by
      rw [hraw, Option.map_some]
      exact congrArg some hrecv
    rw [HostileNet.step,
      show (sharedKey true).top :: (sharedKey true).below = [.secure []] from rfl, hhanded]
    rfl
  have hunforged : Unforged h plainKeys sharedKey s₁
      (.deliver true sent.toBytes .none .none (fun _ => plainDraw)) := by
    intro m text hpresented hrecomputed _ _
    rw [presented, hraw] at hpresented
    cases hpresented
    exact ⟨_, List.mem_singleton_self _, rfl,
      (Layer.checks_secure (c := plainKeys) hrecv).recomputed.symm.trans hrecomputed⟩
  have hrun := (Run.start.next hfirst).next hsecond
  have hmem : (true, plainChat) ∈ s₂.handed := List.mem_singleton_self _
  obtain ⟨e, he, _, hshows⟩ := handed_message_is_genuine hrun
    (List.forall_mem_cons.2 ⟨hunforged, List.forall_mem_cons.2 ⟨trivial, fun p hp => by cases hp⟩⟩)
    hmem ⟨false, rfl⟩
  exact ⟨data, h, _, s₂, hrun, hmem, e, he, hshows⟩

end HostileNet

end Suprime
