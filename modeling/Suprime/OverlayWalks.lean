import Mathlib.Data.Fin.VecNotation
import Mathlib.Data.Fintype.EquivFin
import Mathlib.Order.OrderIsoNat
import Mathlib.Tactic.FinCases
import Mathlib.Tactic.Ring
import Suprime.HpvLinks

namespace Suprime
set_option autoImplicit true

/-- Ids and addresses are strings. -/
instance : Truthy String := ⟨fun s => s ≠ ""⟩

namespace HpvMessage

variable {ν A : Type}

/-- The hop counter of a message that walks through the overlay. -/
def walkTtl : HpvMessage ν A → Option ℤ
  | .forwardJoin _ _ _ ttl => some ttl
  | .shuffle _ _ _ _ ttl => some ttl
  | _ => none

def isWalk (m : HpvMessage ν A) : Bool := m.walkTtl.isSome

/-- A forwarded join stops only at the hop counter 0, so that the counter must not be below it,
unless the handler raises before it forwards. -/
def Halts : HpvMessage ν A → Prop
  | .join _ _ => False
  | .forwardJoin (some _) (some _) _ ttl => 0 ≤ ttl
  | _ => True

/-- How long a chain of messages that starts with this one may get. -/
def rank : HpvMessage ν A → ℕ
  | .forwardJoin _ _ _ ttl => ttl.toNat + 3
  | .shuffle _ _ _ _ ttl => ttl.toNat + 1
  | .neighbor _ _ _ => 2
  | .neighborReply _ _ _ => 1
  | _ => 0

def walksLeft (m : HpvMessage ν A) : ℕ := (m.walkTtl.getD 0).toNat

/-- The message `m` may cause `m'`. -/
structure Descends (m m' : HpvMessage ν A) : Prop where
  halts : m'.Halts
  rank : m'.rank < m.rank
  walks : m'.walksLeft + (if m'.isWalk then 1 else 0) ≤ m.walksLeft

/-- A message that is no walk and causes less than `r` more. -/
structure Quiet (r : ℕ) (m : HpvMessage ν A) : Prop where
  halts : m.Halts
  still : m.isWalk = false
  rank : m.rank < r

theorem Quiet.descends {m m' : HpvMessage ν A} (h : m'.Quiet m.rank) : m.Descends m' := by
  have hnone : m'.walkTtl = none := Option.not_isSome_iff_eq_none.1 (by
    rw [← isWalk, h.still]
    exact Bool.false_ne_true)
  refine ⟨h.halts, h.rank, ?_⟩
  rw [walksLeft, hnone, h.still]
  exact Nat.zero_le _

end HpvMessage

/-- What follows a send of a handler sends only quiet messages. -/
def HpvNext.Quiet (r : ℕ) : HpvNext ν A → Prop
  | .done => True
  | .neighbor _ => 2 < r
  | .reply _ _ => 1 < r
  | .joined _ _ => False
  | .spread _ _ _ => False

def HpvPending.Quiet (r : ℕ) : HpvPending ν A → Prop
  | .addActive _ next => next.Quiet r
  | .tick _ => False
  | .integrate _ => True
  | .send next => next.Quiet r

namespace HyParView

variable {ν A : Type} [DecidableEq ν] [Truthy ν] [Truthy A]

/-- A part of a handler: what it appends to the messages sent and to the suspended handlers. -/
structure Part (h h' : HyParView ν A) (out : List (A × HpvMessage ν A))
    (pending : List (HpvPending ν A)) : Prop where
  sent : h'.sent = h.sent ++ out
  pending : h'.pending = h.pending ++ pending

/-- What a suspended handler sends from then on. The node may be in any state when it goes on, and
it may not go on. -/
inductive Resumes (id : ν) : HpvPending ν A → List (A × HpvMessage ν A) → Prop
  | waits : Resumes id p []
  | returns {h h' : HyParView ν A} : h.id = id → h.resume p d = some h' → h.Part h' out [] →
      Resumes id p out
  | suspends {h h' : HyParView ν A} : h.id = id → h.resume p d = some h' →
      h.Part h' out [q] → Resumes id q rest → Resumes id p (out ++ rest)

/-- What the handler of a message sends. -/
inductive Handles (h : HyParView ν A) (m : HpvMessage ν A) : List (A × HpvMessage ν A) → Prop
  | returns : h.receive m d = some h' → h.Part h' out [] → Handles h m out
  | suspends : h.receive m d = some h' → h.Part h' out [p] → Resumes h.id p rest →
      Handles h m (out ++ rest)

/-- A part of a handler returns, or it sends at most one message and is suspended in that. -/
def Emits (M : HpvMessage ν A → Prop) (P : HpvPending ν A → Prop) (h h' : HyParView ν A) : Prop :=
  h.Part h' [] [] ∨ ∃ out p, h.Part h' out [p] ∧ out.length ≤ 1 ∧ (∀ x ∈ out, M x.2) ∧ P p

variable {M : HpvMessage ν A → Prop} {P : HpvPending ν A → Prop} {h h₁ h' : HyParView ν A}

section
omit [DecidableEq ν] [Truthy ν] [Truthy A]

theorem Emits.of_eq (hs : h₁.sent = h.sent) (hp : h₁.pending = h.pending)
    (he : Emits M P h₁ h') : Emits M P h h' := by
  rcases he with hr | ⟨out, p, hpart, hrest⟩
  · exact .inl ⟨hs ▸ hr.sent, hp ▸ hr.pending⟩
  · exact .inr ⟨out, p, ⟨hs ▸ hpart.sent, hp ▸ hpart.pending⟩, hrest⟩

theorem Emits.mono {M' : HpvMessage ν A → Prop} (he : Emits M P h h') (hM : ∀ m, M m → M' m) :
    Emits M' P h h' := by
  rcases he with hr | ⟨out, p, hpart, hlen, hout, hp⟩
  · exact .inl hr
  · exact .inr ⟨out, p, hpart, hlen, fun x hx => hM _ (hout x hx), hp⟩

theorem emits_of_eq (hs : h'.sent = h.sent) (hp : h'.pending = h.pending) : Emits M P h h' :=
  .inl ⟨by rw [hs, List.append_nil], by rw [hp, List.append_nil]⟩

end

section
omit [Truthy ν] [Truthy A]

theorem part_sendThen (hs : h₁.sent = h.sent) (hp : h₁.pending = h.pending) (n : ν)
    (m : HpvMessage ν A) (p : HpvPending ν A) :
    h.Part (h₁.sendThen n m p) ((h₁.addr n).map (fun a => (a, m))).toList [p] :=
  ⟨congrArg (· ++ _) hs, congrArg (· ++ _) hp⟩

theorem emits_sendThen (h : HyParView ν A) (n : ν) {m : HpvMessage ν A} {p : HpvPending ν A}
    (hm : M m) (hp : P p) : Emits M P h (h.sendThen n m p) := by
  refine .inr ⟨_, p, part_sendThen rfl rfl n m p, ?_, ?_, hp⟩
  · cases h.addr n with
    | none => exact Nat.zero_le _
    | some a => exact le_rfl
  · intro x hx
    obtain ⟨a, _, rfl⟩ := Option.map_eq_some_iff.1 (Option.mem_toList.1 hx)
    exact hm

end

theorem record_sent (h : HyParView ν A) (n : ν) (a : A) :
    (h.record n a).sent = h.sent ∧ (h.record n a).pending = h.pending := by
  rcases h.record_cases n a with he | he <;> rw [he] <;> exact ⟨rfl, rfl⟩

theorem recordAny_sent (h : HyParView ν A) (n : Option ν) (a : A) :
    (h.recordAny n a).sent = h.sent ∧ (h.recordAny n a).pending = h.pending := by
  cases n with
  | none => exact ⟨rfl, rfl⟩
  | some n => exact h.record_sent n a

section
omit [Truthy ν] [Truthy A]

theorem addPassive_sent {picks rest : List ν} (hs : h.addPassive n picks = some (h', rest)) :
    h'.sent = h.sent ∧ h'.pending = h.pending := by
  obtain ⟨passive, rfl, _⟩ := addPassive_cases hs
  exact ⟨rfl, rfl⟩

end

theorem integrate_sent {nodes : List (Option (ν × A))} {picks : List ν}
    (hs : h.integrate nodes picks = some h') :
    h'.sent = h.sent ∧ h'.pending = h.pending := by
  induction nodes generalizing h picks with
  | nil =>
    cases hs
    exact ⟨rfl, rfl⟩
  | cons x nodes ih =>
    match x with
    | none =>
      cases hs
      exact ⟨rfl, rfl⟩
    | some (n, a) =>
      rw [integrate] at hs
      split at hs
      · exact ih hs
      · obtain ⟨⟨h₂, rest⟩, hpassive, hs⟩ := Option.bind_eq_some_iff.1 hs
        obtain ⟨hsent, hpending⟩ := ih hs
        obtain ⟨hsent', hpending'⟩ := addPassive_sent hpassive
        obtain ⟨hsent'', hpending''⟩ := h.record_sent n a
        exact ⟨hsent.trans (hsent'.trans hsent''), hpending.trans (hpending'.trans hpending'')⟩

section
omit [Truthy ν] [Truthy A]

theorem proceed_emits {next : HpvNext ν A} (hn : next.Quiet r)
    (hs : h.proceed next d = some h') :
    Emits (HpvMessage.Quiet r) (HpvPending.Quiet r) h h' := by
  cases next with
  | done =>
    cases hs
    exact emits_of_eq rfl rfl
  | neighbor nid =>
    cases hs
    exact emits_sendThen h nid ⟨trivial, rfl, hn⟩ trivial
  | reply nid accept =>
    cases hs
    exact emits_sendThen h nid ⟨trivial, rfl, hn⟩ trivial
  | joined nid address => cases hn
  | spread nid address size => cases hn

theorem addActive_emits {next : HpvNext ν A} (hr : 0 < r) (hn : next.Quiet r)
    (hs : h.addActive nid next d = some h') :
    Emits (HpvMessage.Quiet r) (HpvPending.Quiet r) h h' := by
  unfold addActive at hs
  split at hs
  · exact proceed_emits hn hs
  · split at hs
    · exact proceed_emits hn hs
    · dsimp only at hs
      split at hs
      · obtain ⟨⟨victim, picks⟩, _, hs⟩ := Option.bind_eq_some_iff.1 hs
        obtain ⟨⟨h₂, rest⟩, hpassive, hs⟩ := Option.bind_eq_some_iff.1 hs
        obtain ⟨hsent, hpending⟩ := addPassive_sent hpassive
        cases hs
        exact (emits_sendThen h₂ victim ⟨trivial, rfl, hr⟩ hn).of_eq hsent hpending
      · refine Emits.of_eq ?_ ?_ (proceed_emits hn hs) <;> rfl

end

theorem resume_emits {p : HpvPending ν A} (hp : p.Quiet r) (hs : h.resume p d = some h') :
    Emits (HpvMessage.Quiet r) (HpvPending.Quiet r) h h' := by
  cases p with
  | addActive nid next => refine Emits.of_eq ?_ ?_ (proceed_emits hp hs) <;> rfl
  | tick candidate => cases hp
  | integrate nodes =>
    obtain ⟨hsent, hpending⟩ := integrate_sent hs
    exact emits_of_eq hsent hpending
  | send next => exact proceed_emits hp hs

section
omit [DecidableEq ν] [Truthy ν] [Truthy A]

theorem Emits.descends {m : HpvMessage ν A} (he : Emits (HpvMessage.Quiet r) P h h')
    (hr : m.rank = r) : Emits m.Descends P h h' := by
  subst hr
  exact he.mono (fun _ hm => hm.descends)

end

section
omit [Truthy ν] [Truthy A]

theorem deposit_sent {picks rest : List ν} (hs : h.deposit nid ttl picks = some (h', rest)) :
    h'.sent = h.sent ∧ h'.pending = h.pending := by
  unfold deposit at hs
  split at hs
  · exact addPassive_sent hs
  · cases hs
    exact ⟨rfl, rfl⟩

theorem forward_emits {src : Option ν} {address : A} (hhop : src.isSome → 0 < ttl)
    (hs : h.forward src nid address ttl d = some h') :
    Emits (HpvMessage.forwardJoin src (some nid) address ttl).Descends
      (HpvPending.Quiet (ttl.toNat + 3)) h h' := by
  cases src with
  | none =>
    cases hs
    exact emits_of_eq rfl rfl
  | some src =>
    have hpos := hhop rfl
    rw [forward] at hs
    split at hs
    · obtain ⟨⟨nxt, picks⟩, _, hs⟩ := Option.bind_eq_some_iff.1 hs
      cases hs
      refine emits_sendThen h nxt ⟨?_, ?_, ?_⟩ trivial
      · change 0 ≤ ttl - 1
        omega
      · simp only [HpvMessage.rank]
        omega
      · simp only [HpvMessage.walksLeft, HpvMessage.walkTtl, HpvMessage.isWalk, Option.getD_some,
          Option.isSome_some, if_true]
        omega
    · have hdone : (HpvNext.done : HpvNext ν A).Quiet (ttl.toNat + 3) := trivial
      exact (addActive_emits (Nat.succ_pos _) hdone hs).descends rfl

end

theorem onForwardJoin_emits {src : Option ν} {address : A} (hhalts : src.isSome → 0 ≤ ttl)
    (hs : h.onForwardJoin src nid address ttl d = some h') :
    Emits (HpvMessage.forwardJoin src (some nid) address ttl).Descends
      (HpvPending.Quiet (ttl.toNat + 3)) h h' := by
  obtain ⟨hsent, hpending⟩ := h.record_sent nid address
  unfold onForwardJoin at hs
  dsimp only at hs
  split at hs
  · have hneighbor : (HpvNext.neighbor nid : HpvNext ν A).Quiet (ttl.toNat + 3) := by
      change 2 < ttl.toNat + 3
      omega
    have hadded := addActive_emits (Nat.succ_pos _) hneighbor hs
    exact (hadded.descends rfl).of_eq hsent hpending
  · rename_i hgoes
    rw [not_or] at hgoes
    obtain ⟨⟨h₂, picks⟩, hdeposit, hs⟩ := Option.bind_eq_some_iff.1 hs
    obtain ⟨hsent', hpending'⟩ := deposit_sent hdeposit
    have hhop : src.isSome → 0 < ttl := by
      intro hsome
      have hle := hhalts hsome
      have hne := hgoes.1
      omega
    exact (forward_emits hhop hs).of_eq (hsent'.trans hsent) (hpending'.trans hpending)

section
omit [Truthy ν] [Truthy A]

theorem replyShuffle_emits {origin : Option ν} {nodes : List (Option (ν × A))} (hr : 0 < r)
    (hs : h.replyShuffle origin nodes d = some h') :
    Emits (HpvMessage.Quiet r) (HpvPending.Quiet r) h h' := by
  cases origin with
  | none =>
    cases hs
    exact emits_of_eq rfl rfl
  | some origin =>
    rw [replyShuffle] at hs
    split at hs
    · cases hs
      exact emits_sendThen h origin ⟨trivial, rfl, hr⟩ trivial
    · cases hs

end

theorem onShuffle_emits {src origin : Option ν} {originAddr : A}
    {nodes : List (Option (ν × A))} (hs : h.onShuffle src origin originAddr nodes ttl d = some h') :
    Emits (HpvMessage.shuffle src origin originAddr nodes ttl).Descends
      (HpvPending.Quiet (ttl.toNat + 1)) h h' := by
  obtain ⟨hsent, hpending⟩ := h.recordAny_sent origin originAddr
  unfold onShuffle at hs
  dsimp only at hs
  split at hs
  · rename_i hgoes
    have hpos := hgoes.1
    cases src with
    | none =>
      cases hs
      exact emits_of_eq hsent hpending
    | some src =>
      dsimp only at hs
      split at hs
      · obtain ⟨⟨nxt, picks⟩, _, hs⟩ := Option.bind_eq_some_iff.1 hs
        cases hs
        refine Emits.of_eq hsent hpending (emits_sendThen _ nxt ⟨trivial, ?_, ?_⟩ trivial)
        · simp only [HpvMessage.rank]
          omega
        · simp only [HpvMessage.walksLeft, HpvMessage.walkTtl, HpvMessage.isWalk,
            Option.getD_some, Option.isSome_some, if_true]
          omega
      · have hreply := replyShuffle_emits (Nat.succ_pos ttl.toNat) hs
        exact (hreply.descends rfl).of_eq hsent hpending
  · have hreply := replyShuffle_emits (Nat.succ_pos ttl.toNat) hs
    exact (hreply.descends rfl).of_eq hsent hpending

theorem receive_emits {m : HpvMessage ν A} (hm : m.Halts) (hs : h.receive m d = some h') :
    Emits m.Descends (HpvPending.Quiet m.rank) h h' := by
  have hsame : some h = some h' → Emits m.Descends (HpvPending.Quiet m.rank) h h' := by
    intro he
    cases he
    exact emits_of_eq rfl rfl
  cases m with
  | join nodeId address => cases hm
  | forwardJoin src nodeId address ttl =>
    cases nodeId with
    | none => exact hsame hs
    | some nid =>
      refine onForwardJoin_emits ?_ hs
      intro hsome
      obtain ⟨src, rfl⟩ := Option.isSome_iff_exists.1 hsome
      exact hm
  | neighbor nodeId address high =>
    cases nodeId with
    | none => exact hsame hs
    | some nid =>
      obtain ⟨hsent, hpending⟩ := h.record_sent nid address
      simp only [receive, onNeighbor] at hs
      split at hs
      · have hreply : (HpvNext.reply nid true : HpvNext ν A).Quiet 2 := Nat.one_lt_two
        exact ((addActive_emits Nat.two_pos hreply hs).descends rfl).of_eq hsent hpending
      · have hreply : (HpvNext.reply nid false : HpvNext ν A).Quiet 2 := Nat.one_lt_two
        exact ((proceed_emits hreply hs).descends rfl).of_eq hsent hpending
  | neighborReply nodeId address accepted =>
    cases nodeId with
    | none => exact hsame hs
    | some nid =>
      obtain ⟨hsent, hpending⟩ := h.record_sent nid address
      simp only [receive, onNeighborReply] at hs
      split at hs
      · have hdone : (HpvNext.done : HpvNext ν A).Quiet 1 := trivial
        exact ((addActive_emits Nat.one_pos hdone hs).descends rfl).of_eq hsent hpending
      · obtain ⟨⟨h₂, rest⟩, hpassive, rfl⟩ := Option.map_eq_some_iff.1 hs
        obtain ⟨hsent', hpending'⟩ := addPassive_sent hpassive
        exact emits_of_eq (hsent'.trans hsent) (hpending'.trans hpending)
  | disconnect nodeId =>
    cases nodeId with
    | none => exact hsame hs
    | some nid =>
      simp only [receive, onDisconnect] at hs
      split at hs
      · obtain ⟨⟨h₂, rest⟩, hpassive, rfl⟩ := Option.map_eq_some_iff.1 hs
        obtain ⟨hsent', hpending'⟩ := addPassive_sent hpassive
        exact emits_of_eq hsent' hpending'
      · exact hsame hs
  | shuffle src origin originAddr nodes ttl => exact onShuffle_emits hs
  | shuffleReply nodeId address nodes =>
    obtain ⟨hsent, hpending⟩ := h.recordAny_sent nodeId address
    simp only [receive, onShuffleReply] at hs
    cases nodes with
    | none =>
      cases hs
      exact emits_of_eq hsent hpending
    | some nodes =>
      obtain ⟨hsent', hpending'⟩ := integrate_sent hs
      exact emits_of_eq (hsent'.trans hsent) (hpending'.trans hpending)
  | malformed => exact hsame hs

section
omit [DecidableEq ν] [Truthy ν] [Truthy A]

theorem Emits.part {out : List (A × HpvMessage ν A)} {pending : List (HpvPending ν A)}
    (he : Emits M P h h') (hp : h.Part h' out pending) :
    out.length ≤ 1 ∧ (∀ x ∈ out, M x.2) ∧ ∀ p ∈ pending, P p := by
  rcases he with hr | ⟨out', p, hpart, hlen, hout, hpok⟩
  · have hsent := List.append_cancel_left (hp.sent.symm.trans hr.sent)
    have hpending := List.append_cancel_left (hp.pending.symm.trans hr.pending)
    subst hsent hpending
    exact ⟨Nat.zero_le _, List.forall_mem_nil _, List.forall_mem_nil _⟩
  · have hsent := List.append_cancel_left (hp.sent.symm.trans hpart.sent)
    have hpending := List.append_cancel_left (hp.pending.symm.trans hpart.pending)
    subst hsent hpending
    refine ⟨hlen, hout, ?_⟩
    intro q hq
    rw [List.mem_singleton.1 hq]
    exact hpok

end

theorem Resumes.quiet {id : ν} {p : HpvPending ν A} {out : List (A × HpvMessage ν A)}
    (h : Resumes id p out) (hp : p.Quiet r) : ∀ x ∈ out, x.2.Quiet r := by
  induction h with
  | waits =>
    intro x hx
    cases hx
  | returns _ hs hpart => exact ((resume_emits hp hs).part hpart).2.1
  | suspends _ hs hpart _ ih =>
    obtain ⟨_, hout, hq⟩ := (resume_emits hp hs).part hpart
    intro x hx
    rcases List.mem_append.1 hx with hx | hx
    · exact hout x hx
    · exact ih (hq _ List.mem_cons_self) x hx

theorem Handles.descends {m : HpvMessage ν A} {out : List (A × HpvMessage ν A)}
    (h : HyParView.Handles h m out) (hm : m.Halts) :
    (∀ x ∈ out, m.Descends x.2) ∧ out.countP (fun x => x.2.isWalk) ≤ 1 := by
  cases h with
  | returns hs hpart =>
    obtain ⟨hlen, hout, _⟩ := (receive_emits hm hs).part hpart
    exact ⟨hout, List.countP_le_length.trans hlen⟩
  | @suspends _ _ out _ rest hs hpart hrest =>
    obtain ⟨hlen, hout, hp⟩ := (receive_emits hm hs).part hpart
    have hquiet := hrest.quiet (hp _ List.mem_cons_self)
    constructor
    · intro x hx
      rcases List.mem_append.1 hx with hx | hx
      · exact hout x hx
      · exact (hquiet x hx).descends
    · have hnone : rest.countP (fun x => x.2.isWalk) = 0 := by
        rw [List.countP_eq_zero]
        intro x hx
        rw [(hquiet x hx).still]
        exact Bool.false_ne_true
      rw [List.countP_append, hnone, Nat.add_zero]
      exact List.countP_le_length.trans hlen

/-- At time `t` a node handles a message, and the handler sends the next message to the address of
the next node. The nodes of the overlay may change at any time. -/
def Hops (overlay : ℕ → ν → HyParView ν A) (node : ℕ → ν) (msg : ℕ → HpvMessage ν A) (t : ℕ) :
    Prop :=
  ∃ out, Handles (overlay t (node t)) (msg t) out ∧
    ((overlay (t + 1) (node (t + 1))).address, msg (t + 1)) ∈ out

/-- Whatever the overlay and the random choices, every chain of messages that a message causes is
finite. If its hop counter is not negative then there are at most so many walks among them, and no
message of the chain causes two. -/
structure Ends (m : HpvMessage ν A) (ttl : ℤ) : Prop where
  finite : ∀ overlay : ℕ → ν → HyParView ν A, (∀ t n, (overlay t n).id = n) →
    ∀ node msg, msg 0 = m → ¬ ∀ t, Hops overlay node msg t
  bounded : 0 ≤ ttl → ∀ overlay : ℕ → ν → HyParView ν A, (∀ t n, (overlay t n).id = n) →
    ∀ node msg, msg 0 = m → ∀ k, (∀ t < k, Hops overlay node msg t) →
      ((List.range k).countP (fun t => (msg (t + 1)).isWalk) : ℤ) ≤ ttl ∧
      ∀ out, Handles (overlay k (node k)) (msg k) out → out.countP (fun x => x.2.isWalk) ≤ 1

variable {overlay : ℕ → ν → HyParView ν A} {node : ℕ → ν} {msg : ℕ → HpvMessage ν A}

theorem Hops.descends (h : Hops overlay node msg t) (hm : (msg t).Halts) :
    (msg t).Descends (msg (t + 1)) := by
  obtain ⟨out, hout, hmem⟩ := h
  exact (hout.descends hm).1 _ hmem

theorem halts_of_hops (hm : (msg 0).Halts) (h : ∀ t < k, Hops overlay node msg t) :
    (msg k).Halts := by
  induction k with
  | zero => exact hm
  | succ k ih =>
    have hk := ih (fun t ht => h t (Nat.lt_succ_of_lt ht))
    exact ((h k (Nat.lt_succ_self k)).descends hk).halts

theorem count_walks_le (hm : (msg 0).Halts) (h : ∀ t < k, Hops overlay node msg t) :
    (List.range k).countP (fun t => (msg (t + 1)).isWalk) + (msg k).walksLeft ≤
      (msg 0).walksLeft := by
  induction k with
  | zero => simp
  | succ k ih =>
    have hbefore : ∀ t < k, Hops overlay node msg t := fun t ht => h t (Nat.lt_succ_of_lt ht)
    have hle := ih hbefore
    have hwalks := ((h k (Nat.lt_succ_self k)).descends (halts_of_hops hm hbefore)).walks
    rw [List.range_succ, List.countP_append, List.countP_singleton]
    omega

theorem Ends.of_halts {m : HpvMessage ν A} (hm : m.Halts) (httl : m.walkTtl = some ttl) :
    Ends m ttl where
  finite overlay _ node msg h0 h := by
    subst h0
    have hrank : ∀ t, (msg (t + 1)).rank < (msg t).rank := by
      intro t
      exact ((h t).descends (halts_of_hops hm (fun t _ => h t))).rank
    exact not_strictAnti_of_wellFoundedLT (fun t => (msg t).rank) (strictAnti_nat_of_succ_lt hrank)
  bounded hpos overlay _ node msg h0 k h := by
    subst h0
    constructor
    · have hle := count_walks_le hm h
      rw [HpvMessage.walksLeft, HpvMessage.walksLeft, httl, Option.getD_some] at hle
      omega
    · intro out hout
      exact (hout.descends (halts_of_hops hm h)).2

/-- Three nodes that have each other in their active views. -/
def triangle (p : Fin 3 → String) (n : String) : HyParView String String :=
  ⟨n, n, 4, 8, 3, 2, 2, (Finset.univ.image p).erase n, ∅,
    ((Dict.empty.set (p 0) (p 0)).set (p 1) (p 1)).set (p 2) (p 2), [], []⟩

def corner : ℕ → Fin 3
  | 0 => 0
  | t + 1 => corner t + 1

/-- A join goes on to a node that is drawn, unless its hop counter is 0. -/
theorem onForwardJoin_goes {h : HyParView ν A} {src nid nxt : ν} (address : A) (httl : ttl ≠ 0)
    (hprwl : ttl ≠ h.prwl) (hcard : 1 < h.active.card) (hnext : nxt ∈ h.active \ {src, nid}) :
    h.onForwardJoin (some src) nid address ttl ⟨[nxt], [], none⟩ =
      some ((h.record nid address).sendThen nxt
        (.forwardJoin (some h.id) (some nid) address (ttl - 1)) (.send .done)) := by
  obtain ⟨hactive, _, _, hkeeps⟩ := h.record_fields nid address
  have hprwl' : ttl ≠ (h.record nid address).prwl := by
    rcases h.record_cases nid address with he | he <;> rw [he] <;> exact hprwl
  have hgoes : ¬ (ttl = 0 ∨ (h.record nid address).active.card ≤ 1) := by
    rw [hactive, not_or, not_le]
    exact ⟨httl, hcard⟩
  rw [← hactive] at hnext
  rw [← hkeeps.id]
  simp only [onForwardJoin, if_neg hgoes, deposit, if_neg hprwl', forward, Option.bind_eq_bind,
    Option.bind_some, if_pos (Finset.ne_empty_of_mem hnext), choose, if_pos hnext]

variable {p : Fin 3 → String}

theorem triangle_addr (hp : Function.Injective p) (n : String) (i : Fin 3) :
    (triangle p n).addr (p i) = some (p i) := by
  simp only [triangle, addr, Dict.get_set, hp.eq_iff]
  fin_cases i <;> rfl

theorem triangle_active (hp : Function.Injective p) (i : Fin 3) :
    (triangle p (p i)).active.card = 2 := by
  have hmem : p i ∈ Finset.univ.image p := Finset.mem_image_of_mem p (Finset.mem_univ i)
  rw [triangle, Finset.card_erase_of_mem hmem, Finset.card_image_of_injective _ hp,
    Finset.card_univ, Fintype.card_fin]

theorem triangle_forwards (hp : Function.Injective p) (hnid : ∀ i, p i ≠ nid) {src : String}
    (hsrc : p (i + 1) ≠ src) (httl : ttl < 0) (address : String) :
    ∃ out, Handles (triangle p (p i)) (.forwardJoin (some src) (some nid) address ttl) out ∧
      (p (i + 1), .forwardJoin (some (p i)) (some nid) address (ttl - 1)) ∈ out := by
  have hback : ∀ i : Fin 3, i + 1 ≠ i := by decide
  obtain ⟨hsent, hpending⟩ := (triangle p (p i)).record_sent nid address
  have haddr : ((triangle p (p i)).record nid address).addr (p (i + 1)) = some (p (i + 1)) := by
    rw [← triangle_addr hp (p i) (i + 1)]
    rcases (triangle p (p i)).record_cases nid address with he | he
    · rw [he]
    · rw [he, addr, Dict.get_set_ne _ _ (hnid _)]
      rfl
  have hnext : p (i + 1) ∈ (triangle p (p i)).active \ {src, nid} := by
    simp [triangle, hp.ne (hback i), hsrc, hnid]
  have hprwl : ttl ≠ (triangle p (p i)).prwl := by
    change ttl ≠ 2
    omega
  have hcard : 1 < (triangle p (p i)).active.card := by
    rw [triangle_active hp]
    exact Nat.one_lt_two
  have hreceive := onForwardJoin_goes address httl.ne hprwl hcard hnext
  refine ⟨_, .suspends hreceive (part_sendThen hsent hpending _ _ _) .waits, ?_⟩
  rw [haddr, List.append_nil]
  exact List.mem_cons_self

/-- The messages of a join on its way around the triangle. -/
def triangleMsg (p : Fin 3 → String) (m : HpvMessage String String) (nid address : String)
    (ttl : ℤ) : ℕ → HpvMessage String String
  | 0 => m
  | t + 1 => .forwardJoin (some (p (corner t))) (some nid) address (ttl - 1 - t)

theorem triangle_endless (hp : Function.Injective p) (hnid : ∀ i, p i ≠ nid) {src : String}
    (hsrc : ∀ i, p i ≠ src) (httl : ttl < 0) (address : String) (t : ℕ) :
    Hops (fun _ => triangle p) (fun t => p (corner t))
      (triangleMsg p (.forwardJoin (some src) (some nid) address ttl) nid address ttl) t := by
  have hback : ∀ i : Fin 3, i + 1 + 1 ≠ i := by decide
  cases t with
  | zero =>
    obtain ⟨out, hout, hmem⟩ := triangle_forwards (i := 0) hp hnid (hsrc _) httl address
    refine ⟨out, hout, ?_⟩
    have hcount : ttl - 1 - ((0 : ℕ) : ℤ) = ttl - 1 := by
      rw [Nat.cast_zero, sub_zero]
    rw [triangleMsg, hcount]
    exact hmem
  | succ t =>
    have hless : ttl - 1 - t < 0 := by omega
    obtain ⟨out, hout, hmem⟩ :=
      triangle_forwards (i := corner t + 1) hp hnid (hp.ne (hback (corner t))) hless address
    refine ⟨out, hout, ?_⟩
    have hcount : ttl - 1 - ((t + 1 : ℕ) : ℤ) = ttl - 1 - t - 1 := by
      push_cast
      ring
    rw [triangleMsg, hcount]
    exact hmem

theorem exists_names (nid src : String) :
    ∃ p : Fin 3 → String, Function.Injective p ∧ ∀ i, p i ≠ nid ∧ p i ≠ src := by
  have hinf : (({nid, src} : Finset String) : Set String)ᶜ.Infinite :=
    ({nid, src} : Finset String).finite_toSet.infinite_compl
  refine ⟨fun i => Set.Infinite.natEmbedding _ hinf i, ?_, ?_⟩
  · intro i j hij
    exact Fin.ext ((Set.Infinite.natEmbedding _ hinf).injective (Subtype.ext hij))
  · intro i
    have hi := (Set.Infinite.natEmbedding _ hinf i).2
    simpa only [Set.mem_compl_iff, Finset.coe_insert, Finset.coe_singleton, Set.mem_insert_iff,
      Set.mem_singleton_iff, not_or] using hi

/-- The walks that a message starts end, within as many hops as its counter allows, exactly when
it is no join with a negative hop counter that its receiver can forward. -/
theorem walks_end_iff {m : HpvMessage String String} (httl : m.walkTtl = some ttl) :
    Ends m ttl ↔ m.Halts := by
  refine ⟨fun h => ?_, fun hm => Ends.of_halts hm httl⟩
  match m, httl with
  | .shuffle _ _ _ _ _, _ => exact trivial
  | .forwardJoin none _ _ _, _ => exact trivial
  | .forwardJoin (some _) none _ _, _ => exact trivial
  | .forwardJoin (some src) (some nid) address ttl, rfl =>
    by_contra hneg
    obtain ⟨p, hp, havoid⟩ := exists_names nid src
    exact h.finite _ (fun _ _ => rfl) _ _ rfl (triangle_endless hp (fun i => (havoid i).1)
      (fun i => (havoid i).2) (not_le.1 hneg) address)

theorem walks_end_iff_of_join :
    Ends (.forwardJoin (some "a") (some "d") "d" 3 : HpvMessage String String) 3 ↔
      (HpvMessage.forwardJoin (some "a") (some "d") "d" 3 : HpvMessage String String).Halts :=
  walks_end_iff rfl

/-- A join with the hop counter -1 never stops among three nodes. -/
theorem negative_join_walks_forever :
    (∀ t, Hops (fun _ => triangle !["a", "b", "c"]) (fun t => !["a", "b", "c"] (corner t))
      (triangleMsg !["a", "b", "c"] (.forwardJoin (some "e") (some "d") "d" (-1)) "d" "d" (-1)) t) ∧
    ¬ Ends (.forwardJoin (some "e") (some "d") "d" (-1) : HpvMessage String String) (-1) := by
  have hgo := triangle_endless (p := !["a", "b", "c"]) (by decide)
    (show ∀ i, !["a", "b", "c"] i ≠ "d" by decide)
    (show ∀ i, !["a", "b", "c"] i ≠ "e" by decide) (show (-1 : ℤ) < 0 by decide) "d"
  exact ⟨hgo, fun h => h.finite _ (fun _ _ => rfl) _ _ rfl hgo⟩

end HyParView

end Suprime
