import Suprime.HyParView

namespace Suprime
set_option autoImplicit true

/-- The node may become a member: it is another node with a known address. -/
def Booked (id : ν) [DecidableEq ν] (book : Dict ν A) (n : ν) : Prop :=
  n ≠ id ∧ ∃ a, book.get n = some a

/-- A suspended handler adds only nodes that may become members. -/
def HpvPending.Fits [DecidableEq ν] (id : ν) (book : Dict ν A) : HpvPending ν A → Prop
  | .addActive nid _ => Booked id book nid
  | .tick candidate => Booked id book candidate
  | _ => True

theorem Booked.set [DecidableEq ν] {id k n : ν} {book : Dict ν A} {a : A} (h : Booked id book n) :
    Booked id (book.set k a) n := by
  obtain ⟨hne, x, hx⟩ := h
  refine ⟨hne, ?_⟩
  rw [Dict.get_set]
  split
  · exact ⟨a, rfl⟩
  · exact ⟨x, hx⟩

theorem HpvPending.Fits.set [DecidableEq ν] {id k : ν} {book : Dict ν A} {a : A}
    {p : HpvPending ν A} (h : p.Fits id book) :
    p.Fits id (book.set k a) := by
  cases p with
  | addActive nid next => exact Booked.set h
  | tick candidate => exact Booked.set h
  | integrate => trivial
  | send => trivial

namespace HyParView

variable {ν A : Type} [DecidableEq ν] [Truthy ν] [Truthy A]

/-- The views are bounded and disjoint, and their members are other nodes with known addresses. -/
structure Ok (h : HyParView ν A) : Prop where
  active_le : h.active.card ≤ h.activeSize
  passive_le : h.passive.card ≤ h.passiveSize
  disjoint : Disjoint h.active h.passive
  booked : ∀ n, n ∈ h.active ∨ n ∈ h.passive → Booked h.id h.book n
  pending : ∀ p ∈ h.pending, p.Fits h.id h.book

/-- What no handler changes. -/
structure Keeps (h h' : HyParView ν A) : Prop where
  id : h'.id = h.id
  activeSize : h'.activeSize = h.activeSize
  passiveSize : h'.passiveSize = h.passiveSize

theorem record_fields (h : HyParView ν A) (nid : ν) (address : A) :
    (h.record nid address).active = h.active ∧ (h.record nid address).passive = h.passive ∧
      (h.record nid address).pending = h.pending ∧ h.Keeps (h.record nid address) := by
  unfold record
  split
  · exact ⟨rfl, rfl, rfl, rfl, rfl, rfl⟩
  · exact ⟨rfl, rfl, rfl, rfl, rfl, rfl⟩

theorem Ok.record {h : HyParView ν A} (ho : h.Ok) (nid : ν) (address : A) :
    (h.record nid address).Ok := by
  unfold HyParView.record
  split
  · exact ⟨ho.active_le, ho.passive_le, ho.disjoint, fun n hn => (ho.booked n hn).set,
      fun p hp => (ho.pending p hp).set⟩
  · exact ho

section
omit [Truthy ν] [Truthy A]

theorem Ok.sendThen {h : HyParView ν A} (ho : h.Ok) (n : ν) (m : HpvMessage ν A)
    {p : HpvPending ν A} (hp : p.Fits h.id h.book) : (h.sendThen n m p).Ok where
  active_le := ho.active_le
  passive_le := ho.passive_le
  disjoint := ho.disjoint
  booked := ho.booked
  pending q hq := by
    rcases List.mem_append.1 hq with hq | hq
    · exact ho.pending q hq
    · rw [List.mem_singleton.1 hq]
      exact hp

theorem Ok.shrink {h : HyParView ν A} (ho : h.Ok) {active passive : Finset ν}
    (ha : active ⊆ h.active) (hp : passive ⊆ h.passive) :
    { h with active := active, passive := passive }.Ok where
  active_le := (Finset.card_le_card ha).trans ho.active_le
  passive_le := (Finset.card_le_card hp).trans ho.passive_le
  disjoint := ho.disjoint.mono ha hp
  booked n hn := ho.booked n (hn.imp (fun hm => ha hm) (fun hm => hp hm))
  pending := ho.pending

theorem Ok.insertActive {h : HyParView ν A} (ho : h.Ok) (hb : Booked h.id h.book n)
    (hn : n ∉ h.passive) (hroom : n ∈ h.active ∨ h.active.card < h.activeSize) :
    { h with active := insert n h.active }.Ok where
  active_le := by
    rcases hroom with hm | hlt
    · rw [Finset.insert_eq_of_mem hm]
      exact ho.active_le
    · exact (Finset.card_insert_le _ _).trans hlt
  passive_le := ho.passive_le
  disjoint := Finset.disjoint_insert_left.2 ⟨hn, ho.disjoint⟩
  booked m hm := by
    rcases hm with hm | hm
    · rcases Finset.mem_insert.1 hm with rfl | hm
      · exact hb
      · exact ho.booked m (.inl hm)
    · exact ho.booked m (.inr hm)
  pending := ho.pending

theorem Ok.insertPassive {h : HyParView ν A} (ho : h.Ok) (hb : Booked h.id h.book n)
    (hn : n ∉ h.active) {passive : Finset ν} (hsub : passive ⊆ h.passive)
    (hroom : passive.card < h.passiveSize) :
    { h with passive := insert n passive }.Ok where
  active_le := ho.active_le
  passive_le := (Finset.card_insert_le _ _).trans hroom
  disjoint := Finset.disjoint_insert_right.2 ⟨hn, ho.disjoint.mono_right hsub⟩
  booked m hm := by
    rcases hm with hm | hm
    · exact ho.booked m (.inl hm)
    · rcases Finset.mem_insert.1 hm with rfl | hm
      · exact hb
      · exact ho.booked m (.inr (hsub hm))
  pending := ho.pending

end

section
omit [Truthy ν]

theorem mem_of_choose {pool : Finset ν} (h : choose pool picks = some (c, rest)) : c ∈ pool := by
  cases picks with
  | nil => cases h
  | cons x picks =>
    simp only [choose] at h
    split at h
    · rename_i hx
      cases h
      exact hx
    · cases h

end

section
omit [Truthy ν] [Truthy A]

theorem addPassive_spec {h h' : HyParView ν A} (ho : h.Ok) (hsize : 1 ≤ h.passiveSize)
    (hs : h.addPassive n picks = some (h', rest)) :
    h'.Ok ∧ h.Keeps h' ∧ h'.active = h.active ∧ h'.book = h.book ∧
      ∀ m ∈ h'.passive, m ∈ h.passive ∨ m = n := by
  unfold addPassive at hs
  split at hs
  · cases hs
    exact ⟨ho, ⟨rfl, rfl, rfl⟩, rfl, rfl, fun m hm => .inl hm⟩
  · rename_i hn
    rw [not_or, not_or] at hn
    split at hs
    · cases hs
      exact ⟨ho, ⟨rfl, rfl, rfl⟩, rfl, rfl, fun m hm => .inl hm⟩
    · rename_i haddr
      have hb : Booked h.id h.book n := ⟨hn.1, Option.ne_none_iff_exists'.1 haddr⟩
      split at hs
      · rename_i hfull
        obtain ⟨⟨c, rest'⟩, hc, hs⟩ := Option.bind_eq_some_iff.1 hs
        cases hs
        have hcard := Finset.card_erase_of_mem (mem_of_choose hc)
        have hle := ho.passive_le
        refine ⟨ho.insertPassive hb hn.2.1 (Finset.erase_subset _ _) (by omega),
          ⟨rfl, rfl, rfl⟩, rfl, rfl, fun m hm => ?_⟩
        rcases Finset.mem_insert.1 hm with rfl | hm
        · exact .inr rfl
        · exact .inl (Finset.mem_of_mem_erase hm)
      · rename_i hroom
        cases hs
        refine ⟨ho.insertPassive hb hn.2.1 (Finset.Subset.refl _) (not_le.1 hroom),
          ⟨rfl, rfl, rfl⟩, rfl, rfl, fun m hm => ?_⟩
        rcases Finset.mem_insert.1 hm with rfl | hm
        · exact .inr rfl
        · exact .inl hm

end

/-- The node is well and its constants are those of `h`. -/
def After (h h' : HyParView ν A) : Prop := h'.Ok ∧ h.Keeps h'

section
omit [Truthy ν] [Truthy A] [DecidableEq ν]

theorem Keeps.trans {h₁ h₂ h₃ : HyParView ν A} (h : h₁.Keeps h₂) (h' : h₂.Keeps h₃) :
    h₁.Keeps h₃ :=
  ⟨h'.id.trans h.id, h'.activeSize.trans h.activeSize, h'.passiveSize.trans h.passiveSize⟩

theorem Keeps.refl (h : HyParView ν A) : h.Keeps h := ⟨rfl, rfl, rfl⟩

end

section
omit [Truthy ν] [Truthy A]

theorem Ok.proceed {h h' : HyParView ν A} (ho : h.Ok) (hs : h.proceed next d = some h') :
    h.After h' := by
  cases next with
  | done =>
    cases hs
    exact ⟨ho, .refl h⟩
  | joined nid address =>
    cases hs
    exact ⟨ho.sendThen _ _ trivial, ⟨rfl, rfl, rfl⟩⟩
  | spread nid address size =>
    simp only [HyParView.proceed] at hs
    split at hs
    · cases hs
      exact ⟨ho, .refl h⟩
    · split at hs
      · cases hs
        exact ⟨ho, .refl h⟩
      · split at hs
        · cases hs
          exact ⟨ho.sendThen _ _ trivial, ⟨rfl, rfl, rfl⟩⟩
        · cases hs
  | neighbor nid =>
    cases hs
    exact ⟨ho.sendThen _ _ trivial, ⟨rfl, rfl, rfl⟩⟩
  | reply nid accept =>
    cases hs
    exact ⟨ho.sendThen _ _ trivial, ⟨rfl, rfl, rfl⟩⟩

theorem Ok.dropRandomActive {h h' : HyParView ν A} (ho : h.Ok) (hsize : 1 ≤ h.passiveSize)
    (hp : p.Fits h.id h.book) (hs : h.dropRandomActive p d = some h') : h.After h' := by
  obtain ⟨⟨victim, picks⟩, hv, hs⟩ := Option.bind_eq_some_iff.1 hs
  obtain ⟨⟨h₁, picks'⟩, ha, hs⟩ := Option.bind_eq_some_iff.1 hs
  cases hs
  have ho₀ := ho.shrink (Finset.erase_subset victim h.active) (Finset.Subset.refl h.passive)
  obtain ⟨ho₁, hk, _, hbook, _⟩ := addPassive_spec ho₀ hsize ha
  refine ⟨ho₁.sendThen _ _ ?_, ⟨hk.id, hk.activeSize, hk.passiveSize⟩⟩
  rw [hk.id, hbook]
  exact hp

theorem Ok.addActive {h h' : HyParView ν A} (ho : h.Ok) (hsize : 1 ≤ h.passiveSize)
    (hactive : 1 ≤ h.activeSize) (hs : h.addActive n next d = some h') : h.After h' := by
  unfold HyParView.addActive at hs
  split at hs
  · exact ho.proceed hs
  · rename_i hn
    rw [not_or] at hn
    split at hs
    · exact ho.proceed hs
    · rename_i haddr
      have hb : Booked h.id h.book n := ⟨hn.1, Option.ne_none_iff_exists'.1 haddr⟩
      have ho₀ := ho.shrink (Finset.Subset.refl h.active) (Finset.erase_subset n h.passive)
      dsimp only at hs
      split at hs
      · have hpend : HpvPending.Fits h.id h.book (.addActive n next) := hb
        obtain ⟨ho', hk⟩ := ho₀.dropRandomActive hsize hpend hs
        exact ⟨ho', ⟨hk.id, hk.activeSize, hk.passiveSize⟩⟩
      · rename_i hroom
        have hlt : h.active.card < h.activeSize := by
          rw [not_and_or, not_le, not_not] at hroom
          rcases hroom with hlt | hempty
          · exact hlt
          · rw [hempty, Finset.card_empty]
            exact hactive
        have ho₁ := ho₀.insertActive hb (Finset.notMem_erase n h.passive) (.inr hlt)
        obtain ⟨ho', hk⟩ := ho₁.proceed hs
        exact ⟨ho', ⟨hk.id, hk.activeSize, hk.passiveSize⟩⟩

theorem After.of_keeps {h₁ h₂ h₃ : HyParView ν A} (hk : h₁.Keeps h₂) (ha : h₂.After h₃) :
    h₁.After h₃ :=
  ⟨ha.1, hk.trans ha.2⟩

theorem Ok.forward {h h' : HyParView ν A} {address : A} (ho : h.Ok) (hsize : 1 ≤ h.passiveSize)
    (hactive : 1 ≤ h.activeSize) (hs : h.forward src n address ttl d = some h') : h.After h' := by
  cases src with
  | none =>
    cases hs
    exact ⟨ho, .refl _⟩
  | some src =>
    simp only [HyParView.forward] at hs
    split at hs
    · obtain ⟨⟨nxt, _⟩, _, hs⟩ := Option.bind_eq_some_iff.1 hs
      cases hs
      exact ⟨ho.sendThen _ _ trivial, ⟨rfl, rfl, rfl⟩⟩
    · exact ho.addActive hsize hactive hs

end

theorem Ok.onForwardJoin {h h' : HyParView ν A} {address : A} (ho : h.Ok)
    (hsize : 1 ≤ h.passiveSize) (hactive : 1 ≤ h.activeSize)
    (hs : h.onForwardJoin src n address ttl d = some h') : h.After h' := by
  have ho₁ := ho.record n address
  have hk₁ := (record_fields h n address).2.2.2
  have hp₁ : 1 ≤ (h.record n address).passiveSize := hk₁.passiveSize ▸ hsize
  have ha₁ : 1 ≤ (h.record n address).activeSize := hk₁.activeSize ▸ hactive
  apply After.of_keeps hk₁
  unfold HyParView.onForwardJoin at hs
  dsimp only at hs
  split at hs
  · exact ho₁.addActive hp₁ ha₁ hs
  · obtain ⟨⟨h₂, picks⟩, hpas, hs⟩ := Option.bind_eq_some_iff.1 hs
    have h₂ok : (h.record n address).After h₂ := by
      unfold deposit at hpas
      split at hpas
      · obtain ⟨ho₂, hk₂, _⟩ := addPassive_spec ho₁ hp₁ hpas
        exact ⟨ho₂, hk₂⟩
      · cases hpas
        exact ⟨ho₁, .refl _⟩
    obtain ⟨ho₂, hk₂⟩ := h₂ok
    apply After.of_keeps hk₂
    exact ho₂.forward (hk₂.passiveSize ▸ hp₁) (hk₂.activeSize ▸ ha₁) hs

section
omit [Truthy ν] [Truthy A]

theorem Ok.onDisconnect {h h' : HyParView ν A} (ho : h.Ok) (hsize : 1 ≤ h.passiveSize)
    (hs : h.onDisconnect n d = some h') : h.After h' := by
  unfold HyParView.onDisconnect at hs
  split at hs
  · obtain ⟨⟨h₁, picks⟩, ha, rfl⟩ := Option.map_eq_some_iff.1 hs
    have ho₀ := ho.shrink (Finset.erase_subset n h.active) (Finset.Subset.refl h.passive)
    obtain ⟨ho₁, hk, _⟩ := addPassive_spec ho₀ hsize ha
    exact ⟨ho₁, ⟨hk.id, hk.activeSize, hk.passiveSize⟩⟩
  · cases hs
    exact ⟨ho, .refl h⟩

end

theorem Ok.integrate {h h' : HyParView ν A} {nodes : List (Option (ν × A))} (ho : h.Ok)
    (hsize : 1 ≤ h.passiveSize) (hs : h.integrate nodes picks = some h') : h.After h' := by
  induction nodes generalizing h picks with
  | nil =>
    cases hs
    exact ⟨ho, .refl _⟩
  | cons x nodes ih =>
    cases x with
    | none =>
      cases hs
      exact ⟨ho, .refl _⟩
    | some x =>
      obtain ⟨nid, address⟩ := x
      simp only [HyParView.integrate] at hs
      split at hs
      · exact ih ho hsize hs
      · obtain ⟨⟨h₁, picks'⟩, ha, hs⟩ := Option.bind_eq_some_iff.1 hs
        have hk₀ := (record_fields h nid address).2.2.2
        obtain ⟨ho₁, hk₁, _⟩ := addPassive_spec (ho.record nid address)
          (hk₀.passiveSize ▸ hsize) ha
        have hk := hk₀.trans hk₁
        exact .of_keeps hk (ih ho₁ (hk.passiveSize ▸ hsize) hs)

section
omit [Truthy ν] [Truthy A]

theorem Ok.shuffle {h h' : HyParView ν A} (ho : h.Ok) (hs : h.shuffle d picks = some h') :
    h.After h' := by
  unfold HyParView.shuffle at hs
  split at hs
  · cases hs
    exact ⟨ho, .refl h⟩
  · obtain ⟨⟨target, _⟩, _, hs⟩ := Option.bind_eq_some_iff.1 hs
    dsimp only at hs
    split at hs
    · cases hs
      exact ⟨ho.sendThen _ _ trivial, ⟨rfl, rfl, rfl⟩⟩
    · cases hs

end

theorem Ok.recordAny {h : HyParView ν A} (ho : h.Ok) (origin : Option ν) (address : A) :
    h.After (h.recordAny origin address) := by
  cases origin with
  | none => exact ⟨ho, .refl h⟩
  | some origin => exact ⟨ho.record origin address, (record_fields h origin address).2.2.2⟩

section
omit [Truthy ν] [Truthy A]

theorem Ok.replyShuffle {h h' : HyParView ν A} (ho : h.Ok)
    (hs : h.replyShuffle origin nodes d = some h') : h.After h' := by
  cases origin with
  | none =>
    cases hs
    exact ⟨ho, .refl _⟩
  | some origin =>
    simp only [HyParView.replyShuffle] at hs
    split at hs
    · cases hs
      exact ⟨ho.sendThen _ _ trivial, ⟨rfl, rfl, rfl⟩⟩
    · cases hs

end

theorem Ok.onShuffle {h h' : HyParView ν A} (ho : h.Ok)
    (hs : h.onShuffle src origin originAddr nodes ttl d = some h') : h.After h' := by
  obtain ⟨ho₁, hk₁⟩ := ho.recordAny origin originAddr
  apply After.of_keeps hk₁
  unfold HyParView.onShuffle at hs
  dsimp only at hs
  split at hs
  · cases src with
    | none =>
      cases hs
      exact ⟨ho₁, .refl _⟩
    | some src =>
      dsimp only at hs
      split at hs
      · obtain ⟨⟨nxt, _⟩, _, hs⟩ := Option.bind_eq_some_iff.1 hs
        cases hs
        exact ⟨ho₁.sendThen _ _ trivial, ⟨rfl, rfl, rfl⟩⟩
      · exact ho₁.replyShuffle hs
  · exact ho₁.replyShuffle hs

section
omit [Truthy ν] [Truthy A]

theorem Ok.tickLoop {h h' : HyParView ν A} (ho : h.Ok) (hs : h.tickLoop d = some h') :
    h.After h' := by
  unfold HyParView.tickLoop at hs
  split at hs
  · obtain ⟨⟨candidate, _⟩, hc, hs⟩ := Option.bind_eq_some_iff.1 hs
    cases hs
    have ho₀ := ho.shrink (Finset.Subset.refl h.active) (Finset.erase_subset candidate h.passive)
    have hfit : HpvPending.Fits h.id h.book (.tick candidate : HpvPending ν A) :=
      ho.booked candidate (.inr (mem_of_choose hc))
    exact ⟨ho₀.sendThen _ _ hfit, ⟨rfl, rfl, rfl⟩⟩
  · exact ho.shuffle hs

end

theorem Ok.receive {h h' : HyParView ν A} (ho : h.Ok) (hsize : 1 ≤ h.passiveSize)
    (hactive : 1 ≤ h.activeSize) (hs : h.receive m d = some h') : h.After h' := by
  have hrec : ∀ n address, (h.record n address).Ok ∧ h.Keeps (h.record n address) :=
    fun n address => ⟨ho.record n address, (record_fields h n address).2.2.2⟩
  have hadd : ∀ n address next, (h.record n address).addActive n next d = some h' →
      h.After h' := by
    intro n address next hadd
    obtain ⟨ho₁, hk₁⟩ := hrec n address
    exact .of_keeps hk₁ (ho₁.addActive (hk₁.passiveSize ▸ hsize) (hk₁.activeSize ▸ hactive) hadd)
  unfold HyParView.receive at hs
  split at hs
  · exact hadd _ _ _ hs
  · exact ho.onForwardJoin hsize hactive hs
  · rename_i n address high
    obtain ⟨ho₁, hk₁⟩ := hrec n address
    unfold onNeighbor at hs
    dsimp only at hs
    split at hs
    · exact hadd _ _ _ hs
    · exact .of_keeps hk₁ (ho₁.proceed hs)
  · rename_i n address accepted
    obtain ⟨ho₁, hk₁⟩ := hrec n address
    unfold onNeighborReply at hs
    dsimp only at hs
    split at hs
    · exact hadd _ _ _ hs
    · obtain ⟨⟨h₂, picks⟩, ha, rfl⟩ := Option.map_eq_some_iff.1 hs
      obtain ⟨ho₂, hk₂, _⟩ := addPassive_spec ho₁ (hk₁.passiveSize ▸ hsize) ha
      exact ⟨ho₂, hk₁.trans hk₂⟩
  · exact ho.onDisconnect hsize hs
  · exact ho.onShuffle hs
  · rename_i nodeId address nodes
    obtain ⟨ho₁, hk₁⟩ := ho.recordAny nodeId address
    unfold onShuffleReply at hs
    cases nodes with
    | none =>
      cases hs
      exact ⟨ho₁, hk₁⟩
    | some nodes => exact .of_keeps hk₁ (ho₁.integrate (hk₁.passiveSize ▸ hsize) hs)
  · cases hs
    exact ⟨ho, .refl h⟩

/-- What the handler checked before its send is still true when it adds the node to the active
view: there is room in it, or the node is in it, and the node is not in the passive view. -/
def Rechecks (h : HyParView ν A) : HpvPending ν A → Prop
  | .addActive nid _ => nid ∉ h.passive ∧ (nid ∈ h.active ∨ h.active.card < h.activeSize)
  | .tick candidate =>
    candidate ∉ h.passive ∧ (candidate ∈ h.active ∨ h.active.card < h.activeSize)
  | _ => True

instance (h : HyParView ν A) : (p : HpvPending ν A) → Decidable (h.Rechecks p)
  | .addActive .. => inferInstanceAs (Decidable (_ ∧ _))
  | .tick _ => inferInstanceAs (Decidable (_ ∧ _))
  | .integrate _ => isTrue trivial
  | .send _ => isTrue trivial

/-- What a step must meet: a handler that resumes finds its checks still true. -/
def Meets (h : HyParView ν A) : HpvAction ν A → Prop
  | .resume i _ => ∀ p ∈ h.pending[i]?, h.Rechecks p
  | _ => True

instance (h : HyParView ν A) : (a : HpvAction ν A) → Decidable (h.Meets a)
  | .resume i _ => inferInstanceAs (Decidable (∀ p ∈ h.pending[i]?, h.Rechecks p))
  | .receive .. => isTrue trivial
  | .tick _ => isTrue trivial
  | .pruneDead _ => isTrue trivial

theorem Ok.resume {h h' : HyParView ν A} {i : ℕ} (ho : h.Ok) (hsize : 1 ≤ h.passiveSize)
    (hm : h.Meets (.resume i d)) (hi : h.pending[i]? = some p)
    (hs : { h with pending := h.pending.eraseIdx i }.resume p d = some h') : h.After h' := by
  have ho₀ : { h with pending := h.pending.eraseIdx i }.Ok :=
    ⟨ho.active_le, ho.passive_le, ho.disjoint, ho.booked,
      fun q hq => ho.pending q (List.mem_of_mem_eraseIdx hq)⟩
  have hfit := ho.pending p (List.mem_of_getElem? hi)
  have hcond := hm p hi
  cases p with
  | addActive nid next =>
    have ho₁ := ho₀.insertActive hfit hcond.1 hcond.2
    obtain ⟨ho', hk⟩ := ho₁.proceed hs
    exact ⟨ho', ⟨hk.id, hk.activeSize, hk.passiveSize⟩⟩
  | tick candidate =>
    have ho₁ := ho₀.insertActive hfit hcond.1 hcond.2
    obtain ⟨ho', hk⟩ := ho₁.tickLoop hs
    exact ⟨ho', ⟨hk.id, hk.activeSize, hk.passiveSize⟩⟩
  | integrate nodes =>
    obtain ⟨ho', hk⟩ := ho₀.integrate hsize hs
    exact ⟨ho', ⟨hk.id, hk.activeSize, hk.passiveSize⟩⟩
  | send next =>
    obtain ⟨ho', hk⟩ := ho₀.proceed hs
    exact ⟨ho', ⟨hk.id, hk.activeSize, hk.passiveSize⟩⟩

theorem Ok.step {h h' : HyParView ν A} (ho : h.Ok) (hsize : 1 ≤ h.passiveSize)
    (hactive : 1 ≤ h.activeSize) (hm : h.Meets a) (hs : h.step a = some h') : h.After h' := by
  cases a with
  | receive m d => exact ho.receive hsize hactive hs
  | tick d => exact ho.tickLoop hs
  | resume i d =>
    obtain ⟨p, hi, hs⟩ := Option.bind_eq_some_iff.1 hs
    exact ho.resume hsize hm hi hs
  | pruneDead alive =>
    cases hs
    exact ⟨ho.shrink Finset.inter_subset_left Finset.inter_subset_left, ⟨rfl, rfl, rfl⟩⟩

end HyParView

/-- In a run in which every handler that adds a node to the active view after a send finds its
checks still true, the views stay bounded and disjoint, without the node itself and with an
address for every member. -/
theorem views_stay_bounded {ν A : Type} [DecidableEq ν] [Truthy ν] [Truthy A] {id : ν}
    {address : A} {activeSize passiveSize : ℕ} {arwl prwl shuffleTtl : ℤ}
    {past : List (HyParView ν A × HpvAction ν A)} {h : HyParView ν A}
    (hr : Run HyParView.step
      (HyParView.init id address activeSize passiveSize arwl prwl shuffleTtl) past h)
    (hactive : 1 ≤ activeSize) (hpassive : 1 ≤ passiveSize) (hm : ∀ q ∈ past, q.1.Meets q.2) :
    h.active.card ≤ activeSize ∧ h.passive.card ≤ passiveSize ∧ Disjoint h.active h.passive ∧
      id ∉ h.active ∧ id ∉ h.passive ∧
      ∀ n, n ∈ h.active ∨ n ∈ h.passive → ∃ a, h.book.get n = some a := by
  have hinv : (HyParView.init id address activeSize passiveSize arwl prwl shuffleTtl).After h := by
    apply hr.invariant (I := fun h => HyParView.After _ h) (C := fun h a => h.Meets a) hm
    · refine ⟨⟨Nat.zero_le _, Nat.zero_le _, Finset.disjoint_empty_left _, ?_, ?_⟩, .refl _⟩
      · rintro n (hn | hn)
        · exact absurd hn (Finset.notMem_empty n)
        · exact absurd hn (Finset.notMem_empty n)
      · exact fun p hp => by cases hp
    · intro s a s' ⟨ho, hk⟩ hm hs
      have hp : 1 ≤ s.passiveSize := by
        rw [hk.passiveSize]
        exact hpassive
      have ha : 1 ≤ s.activeSize := by
        rw [hk.activeSize]
        exact hactive
      exact .of_keeps hk (ho.step hp ha hm hs)
  obtain ⟨ho, hk⟩ := hinv
  have hid : h.id = id := hk.id
  have hasize : h.activeSize = activeSize := hk.activeSize
  have hpsize : h.passiveSize = passiveSize := hk.passiveSize
  refine ⟨hasize ▸ ho.active_le, hpsize ▸ ho.passive_le, ho.disjoint, ?_, ?_, ?_⟩
  · intro hn
    exact (ho.booked id (.inl hn)).1 hid.symm
  · intro hn
    exact (ho.booked id (.inr hn)).1 hid.symm
  · exact fun n hn => (ho.booked n hn).2

instance : Truthy (List Char) := ⟨fun s => !s.isEmpty⟩

/-- A node with room for one active and one passive member. -/
def smallViews : HyParView (List Char) (List Char) := .init ['a'] ['A'] 1 1 3 2 2

def joinOf (n address : Char) (picks : List (List Char)) :
    HpvAction (List Char) (List Char) :=
  .receive (.join (some [n]) [address]) ⟨picks, [], none⟩

/-- Node `c` joins while the view is full, and its handler resumes after the send. -/
theorem views_stay_bounded_of_two : ∃ past h, Run HyParView.step smallViews past h ∧
    (∀ q ∈ past, q.1.Meets q.2) ∧ h.active = {['c']} ∧ h.passive = {['b']} ∧
    h.active.card ≤ 1 ∧ h.passive.card ≤ 1 ∧ Disjoint h.active h.passive := by
  obtain ⟨past, h, hr, hm, hs⟩ := exists_run_of_execWhere HyParView.step
    (fun h a => h.Meets a) smallViews
    [joinOf 'b' 'B' [], joinOf 'c' 'C' [['b']], .resume 1 ⟨[], [], none⟩]
    (fun h => decide (h.active = {['c']} ∧ h.passive = {['b']})) true (by decide)
  obtain ⟨ha, hp⟩ := of_decide_eq_true hs
  obtain ⟨hle, hle', hd, _⟩ := views_stay_bounded hr (Nat.le_refl 1) (Nat.le_refl 1) hm
  exact ⟨past, h, hr, hm, ha, hp, hle, hle', hd⟩

/-- Node `d` joins while the handler for `c` is suspended, and both enter the view of size one. -/
theorem suspended_join_overfills : ∃ past h, Run HyParView.step smallViews past h ∧
    smallViews.activeSize = 1 ∧ smallViews.passiveSize = 1 ∧ ¬ h.active.card ≤ 1 := by
  obtain ⟨past, h, hr, hs⟩ := exists_run_of_exec HyParView.step smallViews
    [joinOf 'b' 'B' [], joinOf 'c' 'C' [['b']], joinOf 'd' 'D' [], .resume 1 ⟨[], [], none⟩]
    (fun h => h.active.card) 2 (by decide)
  refine ⟨past, h, hr, rfl, rfl, ?_⟩
  rw [hs]
  exact Nat.not_succ_le_self 1

end Suprime
