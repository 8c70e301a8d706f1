import Mathlib.Data.Set.Insert
import Suprime.HpvSwarm
import Suprime.ViewBounds

namespace Suprime
set_option autoImplicit true

section
variable {ν A : Type} [DecidableEq ν] [Truthy ν] [Truthy A]

/-- The addresses that go with ids in a message are those of the nodes. -/
def HpvMessage.Fair (net : HpvNet ν A) : HpvMessage ν A → Prop
  | .join nid a => ∀ n ∈ nid, a = net.address n
  | .forwardJoin _ nid a _ => ∀ n ∈ nid, a = net.address n
  | .neighbor nid a _ => ∀ n ∈ nid, a = net.address n
  | .neighborReply nid a _ => ∀ n ∈ nid, a = net.address n
  | .disconnect _ => True
  | .shuffle _ origin a nodes _ =>
    (∀ n ∈ origin, a = net.address n) ∧ ∀ x ∈ nodes, ∀ p ∈ x, p.2 = net.address p.1
  | .shuffleReply nid a nodes =>
    (∀ n ∈ nid, a = net.address n) ∧ ∀ l ∈ nodes, ∀ x ∈ l, ∀ p ∈ x, p.2 = net.address p.1
  | .malformed => True

/-- The node whose link the receiver takes up or gives up without telling it. -/
def HpvMessage.settles : HpvMessage ν A → Set ν
  | .neighborReply (some n) _ true => {n}
  | .disconnect (some n) => {n}
  | _ => ∅

def HpvNext.Fair (net : HpvNet ν A) : HpvNext ν A → Prop
  | .joined nid a => a = net.address nid
  | .spread nid a _ => a = net.address nid
  | _ => True

/-- What follows invites the node that was added. -/
def HpvNext.Announces (nid : ν) : HpvNext ν A → Prop
  | .joined n _ => n = nid
  | .neighbor n => n = nid
  | .reply n accept => n = nid ∧ accept = true
  | _ => False

/-- A suspended handler has invited the node that it adds, or does it next. -/
def HpvPending.Fair (net : HpvNet ν A) (id : ν) (sent : List (A × HpvMessage ν A))
    (free : Set ν) : HpvPending ν A → Prop
  | .addActive nid next => next.Fair net ∧ (next.Announces nid ∨ nid ∈ free)
  | .tick candidate => Told sent (net.address candidate) (HpvMessage.invites id)
  | .integrate nodes => ∀ x ∈ nodes, ∀ p ∈ x, p.2 = net.address p.1
  | .send next => next.Fair net

section
omit [DecidableEq ν] [Truthy ν] [Truthy A]

theorem told_append (sent : List (A × HpvMessage ν A)) {l : List (A × HpvMessage ν A)}
    {kind : HpvMessage ν A → Bool} (ht : Told sent a kind) : Told (sent ++ l) a kind := by
  obtain ⟨p, hp, hkind⟩ := ht
  exact ⟨p, List.mem_append_left l hp, hkind⟩

end

theorem HpvPending.Fair.append {net : HpvNet ν A} {sent : List (A × HpvMessage ν A)} {free : Set ν}
    (hp : HpvPending.Fair net x sent free p) (l : List (A × HpvMessage ν A)) :
    HpvPending.Fair net x (sent ++ l) free p := by
  cases p with
  | addActive nid next => exact hp
  | tick candidate => exact told_append sent hp
  | integrate nodes => exact hp
  | send next => exact hp

theorem HpvPending.Fair.mono {net : HpvNet ν A} {sent : List (A × HpvMessage ν A)}
    {free free' : Set ν} (hp : HpvPending.Fair net x sent free p) (hsub : free ⊆ free') :
    HpvPending.Fair net x sent free' p := by
  cases p with
  | addActive nid next => exact ⟨hp.1, hp.2.imp_right (fun hn => hsub hn)⟩
  | tick candidate => exact hp
  | integrate nodes => exact hp
  | send next => exact hp

namespace HyParView

/-- The node knows itself and the addresses of others, of its members at least. -/
structure Right (net : HpvNet ν A) (x : ν) (h : HyParView ν A) : Prop where
  id : h.id = x
  address : h.address = net.address x
  book : ∀ n a, h.book.get n = some a → a = net.address n
  booked : ∀ n, n ∈ h.active ∨ n ∈ h.passive → Booked h.id h.book n

/-- A handler that found some active view has invited the nodes that it added, and has told those
that it dropped, with some exceptions. -/
structure Handling (net : HpvNet ν A) (x : ν) (before : Finset ν) (free : Set ν)
    (h : HyParView ν A) : Prop extends Right net x h where
  fair : ∀ p ∈ h.sent, p.2.Fair net
  pending : ∀ p ∈ h.pending, p.Fits h.id h.book ∧ p.Fair net h.id h.sent free
  single : h.pending.length ≤ 1
  added : ∀ y ∈ h.active, y ∉ before → y ∉ free →
    Told h.sent (net.address y) (HpvMessage.invites x)
  removed : ∀ y ∈ before, y ∉ h.active → y ∉ free →
    Told h.sent (net.address y) (HpvMessage.severs x)

variable {net : HpvNet ν A} {h h' : HyParView ν A} {before : Finset ν} {free : Set ν} {x n : ν}
  {a : A} {m : HpvMessage ν A}

theorem Right.addr (hr : h.Right net x) (hb : Booked h.id h.book n) :
    h.addr n = some (net.address n) := by
  obtain ⟨_, x, hx⟩ := hb
  rw [HyParView.addr, hx, hr.book n x hx]

theorem Right.booked_record (hr : h.Right net x) (ha : a = net.address n) (hn : n ≠ x) :
    Booked (h.record n a).id (h.record n a).book n := by
  subst ha
  rw [HyParView.record, if_pos ⟨net.truthyId n, net.truthyAddress n, hr.id ▸ hn⟩]
  refine ⟨hr.id ▸ hn, net.address n, ?_⟩
  rw [Dict.get_set, if_pos rfl]

theorem record_cases (h : HyParView ν A) (n : ν) (a : A) : h.record n a = h ∨
    h.record n a = { h with book := h.book.set n a } := by
  unfold HyParView.record
  split
  · exact .inr rfl
  · exact .inl rfl

section
omit [Truthy ν] [Truthy A]

theorem addPassive_cases {picks rest : List ν} (hs : h.addPassive n picks = some (h', rest)) :
    ∃ passive, h' = { h with passive := passive } ∧
      ∀ m ∈ passive, m ∈ h.passive ∨ m = n ∧ Booked h.id h.book n := by
  unfold addPassive at hs
  split at hs
  · cases hs
    exact ⟨h.passive, rfl, fun m hm => .inl hm⟩
  · rename_i hn
    split at hs
    · cases hs
      exact ⟨h.passive, rfl, fun m hm => .inl hm⟩
    · rename_i haddr
      have hb : Booked h.id h.book n :=
        ⟨fun heq => hn (.inl heq), Option.ne_none_iff_exists'.1 haddr⟩
      have hinsert : ∀ passive ⊆ h.passive, ∀ m ∈ insert n passive,
          m ∈ h.passive ∨ m = n ∧ Booked h.id h.book n := by
        intro passive hsub m hm
        rcases Finset.mem_insert.1 hm with rfl | hm
        · exact .inr ⟨rfl, hb⟩
        · exact .inl (hsub hm)
      split at hs
      · obtain ⟨⟨c, rest'⟩, _, hs⟩ := Option.bind_eq_some_iff.1 hs
        cases hs
        exact ⟨_, rfl, hinsert _ (Finset.erase_subset _ _)⟩
      · cases hs
        exact ⟨_, rfl, hinsert _ (Finset.Subset.refl _)⟩

theorem addActive_of_mem (h : HyParView ν A) (hn : n ∈ h.active) (next : HpvNext ν A)
    (d : Draws ν) : h.addActive n next d = h.proceed next d := by
  rw [HyParView.addActive, if_pos (.inr hn)]

theorem proceed_fields (hs : h.proceed next d = some h') : h'.active = h.active ∧
    ∀ p ∈ h'.pending, p ∈ h.pending ∨ ∃ next, p = .send next := by
  have hsend : ∀ (k : ν) (m : HpvMessage ν A) (next : HpvNext ν A),
      ∀ p ∈ (h.sendThen k m (.send next)).pending, p ∈ h.pending ∨ ∃ next, p = .send next := by
    intro k m next p hmem
    rcases List.mem_append.1 hmem with hmem | hmem
    · exact .inl hmem
    · exact .inr ⟨next, List.mem_singleton.1 hmem⟩
  cases next with
  | done =>
    cases hs
    exact ⟨rfl, fun p hp => .inl hp⟩
  | joined nid address =>
    cases hs
    exact ⟨rfl, hsend _ _ _⟩
  | spread nid address size =>
    simp only [HyParView.proceed] at hs
    split at hs
    · cases hs
      exact ⟨rfl, fun p hp => .inl hp⟩
    · split at hs
      · cases hs
        exact ⟨rfl, fun p hp => .inl hp⟩
      · split at hs
        · cases hs
          exact ⟨rfl, hsend _ _ _⟩
        · cases hs
  | neighbor nid =>
    cases hs
    exact ⟨rfl, hsend _ _ _⟩
  | reply nid accept =>
    cases hs
    exact ⟨rfl, hsend _ _ _⟩

end

theorem told_sendThen (hr : h.Right net x) (hb : Booked h.id h.book n) {p : HpvPending ν A}
    {kind : HpvMessage ν A → Bool} (hm : kind m = true) :
    Told (h.sendThen n m p).sent (net.address n) kind := by
  refine ⟨(net.address n, m), List.mem_append_right _ ?_, rfl, hm⟩
  rw [hr.addr hb]
  exact List.mem_singleton_self _

theorem told_proceed (hr : h.Right net x) (hb : Booked h.id h.book n)
    (hnext : next.Announces n) (hs : h.proceed next d = some h') :
    Told h'.sent (net.address n) (HpvMessage.invites x) := by
  have hid : decide (h.id = x) = true := decide_eq_true hr.id
  cases next with
  | done => cases hnext
  | joined nid address =>
    cases hnext
    cases hs
    exact told_sendThen hr hb hid
  | spread nid address size => cases hnext
  | neighbor nid =>
    cases hnext
    cases hs
    exact told_sendThen hr hb hid
  | reply nid accept =>
    obtain ⟨rfl, rfl⟩ := hnext
    cases hs
    exact told_sendThen hr hb hid

namespace Handling

theorem record (hh : h.Handling net x before free) (ha : a = net.address n) :
    (h.record n a).Handling net x before free := by
  rcases h.record_cases n a with heq | heq
  · rw [heq]
    exact hh
  · rw [heq]
    refine ⟨⟨hh.id, hh.address, fun k x hx => ?_, fun k hk => (hh.booked k hk).set⟩, hh.fair,
      fun p hp => ⟨(hh.pending p hp).1.set, (hh.pending p hp).2⟩, hh.single, hh.added,
      hh.removed⟩
    rw [Dict.get_set] at hx
    split at hx
    · rename_i hk
      cases hx
      rw [hk, ha]
    · exact hh.book k x hx

theorem withPassive (hh : h.Handling net x before free) {p : Finset ν}
    (hp : ∀ m ∈ p, m ∈ h.passive ∨ m = n ∧ Booked h.id h.book n) :
    { h with passive := p }.Handling net x before free where
  id := hh.id
  address := hh.address
  book := hh.book
  booked k hk := by
    rcases hk with hk | hk
    · exact hh.booked k (.inl hk)
    · rcases hp k hk with hk | ⟨rfl, hb⟩
      · exact hh.booked k (.inr hk)
      · exact hb
  fair := hh.fair
  pending := hh.pending
  single := hh.single
  added := hh.added
  removed := hh.removed

theorem addPassive {picks rest : List ν} (hh : h.Handling net x before free)
    (hs : h.addPassive n picks = some (h', rest)) : h'.Handling net x before free := by
  obtain ⟨passive, rfl, hp⟩ := addPassive_cases hs
  exact hh.withPassive hp

theorem sendThen (hh : h.Handling net x before free) (hpend : h.pending = []) {p : HpvPending ν A}
    (hm : m.Fair net) (hfits : p.Fits h.id h.book)
    (hp : p.Fair net h.id (h.sendThen n m p).sent free) :
    (h.sendThen n m p).Handling net x before free where
  id := hh.id
  address := hh.address
  book := hh.book
  booked := hh.booked
  fair q hq := by
    rcases List.mem_append.1 hq with hq | hq
    · exact hh.fair q hq
    · obtain ⟨x, _, rfl⟩ := Option.map_eq_some_iff.1 (Option.mem_toList.1 hq)
      exact hm
  pending q hq := by
    rcases List.mem_append.1 hq with hq | hq
    · exact ⟨(hh.pending q hq).1, (hh.pending q hq).2.append _⟩
    · rw [List.mem_singleton.1 hq]
      exact ⟨hfits, hp⟩
  single := by
    change (h.pending ++ [p]).length ≤ 1
    rw [hpend]
    exact Nat.le_refl 1
  added y hy hb hf := told_append h.sent (hh.added y hy hb hf)
  removed y hy hb hf := told_append h.sent (hh.removed y hy hb hf)

theorem insertActive (hh : h.Handling net x before free) (hb : Booked h.id h.book n) :
    { h with active := insert n h.active }.Handling net x before (insert n free) where
  id := hh.id
  address := hh.address
  book := hh.book
  booked k hk := by
    rcases hk with hk | hk
    · rcases Finset.mem_insert.1 hk with rfl | hk
      · exact hb
      · exact hh.booked k (.inl hk)
    · exact hh.booked k (.inr hk)
  fair := hh.fair
  pending p hp := ⟨(hh.pending p hp).1, (hh.pending p hp).2.mono (Set.subset_insert n free)⟩
  single := hh.single
  added y hy hb hf := by
    rcases Finset.mem_insert.1 hy with rfl | hy
    · exact absurd (Set.mem_insert y free) hf
    · exact hh.added y hy hb (fun hmem => hf (Set.mem_insert_of_mem n hmem))
  removed y hy hb hf :=
    hh.removed y hy (fun hmem => hb (Finset.mem_insert_of_mem hmem))
      (fun hmem => hf (Set.mem_insert_of_mem n hmem))

theorem eraseActive (hh : h.Handling net x before free) (n : ν) :
    { h with active := h.active.erase n }.Handling net x before (insert n free) where
  id := hh.id
  address := hh.address
  book := hh.book
  booked k hk := hh.booked k (hk.imp_left Finset.mem_of_mem_erase)
  fair := hh.fair
  pending p hp := ⟨(hh.pending p hp).1, (hh.pending p hp).2.mono (Set.subset_insert n free)⟩
  single := hh.single
  added y hy hb hf :=
    hh.added y (Finset.mem_of_mem_erase hy) hb (fun hmem => hf (Set.mem_insert_of_mem n hmem))
  removed y hy hb hf := by
    have hne : y ≠ n := fun heq => hf (heq ▸ Set.mem_insert y free)
    exact hh.removed y hy (fun hmem => hb (Finset.mem_erase.2 ⟨hne, hmem⟩))
      (fun hmem => hf (Set.mem_insert_of_mem n hmem))

theorem discharge (hh : h.Handling net x before (insert n free))
    (hpending : ∀ p ∈ h.pending, p.Fair net h.id h.sent free)
    (hadded : n ∈ h.active → n ∉ free → Told h.sent (net.address n) (HpvMessage.invites x))
    (hremoved : n ∉ h.active → n ∉ free → Told h.sent (net.address n) (HpvMessage.severs x)) :
    h.Handling net x before free where
  id := hh.id
  address := hh.address
  book := hh.book
  booked := hh.booked
  fair := hh.fair
  pending p hp := ⟨(hh.pending p hp).1, hpending p hp⟩
  single := hh.single
  added y hy hb hf := by
    by_cases hyn : y = n
    · subst hyn
      exact hadded hy hf
    · exact hh.added y hy hb (fun hmem => hmem.elim hyn hf)
  removed y hy hb hf := by
    by_cases hyn : y = n
    · subst hyn
      exact hremoved hb hf
    · exact hh.removed y hy hb (fun hmem => hmem.elim hyn hf)

theorem proceed (hh : h.Handling net x before free) (hp : h.pending = []) (hnext : next.Fair net)
    (hs : h.proceed next d = some h') : h'.Handling net x before free := by
  cases next with
  | done =>
    cases hs
    exact hh
  | joined nid address =>
    cases hs
    refine hh.sendThen hp (fun k hk => ?_) trivial hnext
    cases hk
    rw [hh.address, hh.id]
  | spread nid address size =>
    simp only [HyParView.proceed] at hs
    split at hs
    · cases hs
      exact hh
    · split at hs
      · cases hs
        exact hh
      · split at hs
        · cases hs
          refine hh.sendThen hp (fun k hk => ?_) trivial hnext
          cases hk
          exact hnext
        · cases hs
  | neighbor nid =>
    cases hs
    refine hh.sendThen hp (fun k hk => ?_) trivial trivial
    cases hk
    rw [hh.address, hh.id]
  | reply nid accept =>
    cases hs
    refine hh.sendThen hp (fun k hk => ?_) trivial trivial
    cases hk
    rw [hh.address, hh.id]

theorem announce (hh : h.Handling net x before (insert n free)) (hp : h.pending = [])
    (hb : Booked h.id h.book n) (hmem : n ∈ h.active) (hnext : next.Fair net)
    (hann : next.Announces n ∨ n ∈ free) (hs : h.proceed next d = some h') :
    h'.Handling net x before free := by
  have hh' := hh.proceed hp hnext hs
  obtain ⟨hactive, hsend⟩ := proceed_fields hs
  apply hh'.discharge
  · intro p hmem
    rcases hsend p hmem with hold | ⟨next, rfl⟩
    · rw [hp] at hold
      cases hold
    · exact (hh'.pending _ hmem).2
  · intro _ hf
    exact told_proceed hh.toRight hb (hann.resolve_right hf) hs
  · intro hnot
    rw [hactive] at hnot
    exact absurd hmem hnot

theorem dropRandomActive (hh : h.Handling net x before free) (hp : h.pending = [])
    {p : HpvPending ν A} (hfits : p.Fits h.id h.book)
    (hfair : ∀ sent, p.Fair net h.id sent free) (hs : h.dropRandomActive p d = some h') :
    h'.Handling net x before free := by
  obtain ⟨⟨victim, picks⟩, hv, hs⟩ := Option.bind_eq_some_iff.1 hs
  obtain ⟨⟨h₁, picks'⟩, ha, hs⟩ := Option.bind_eq_some_iff.1 hs
  cases hs
  have hb := hh.booked victim (.inl (mem_of_choose hv))
  have hh₁ := (hh.eraseActive victim).addPassive ha
  obtain ⟨passive, rfl, _⟩ := addPassive_cases ha
  have hfair' := fun sent => (hfair sent).mono (Set.subset_insert victim free)
  have hfair₁ : (HpvMessage.disconnect (some h.id) : HpvMessage ν A).Fair net := trivial
  apply (hh₁.sendThen hp hfair₁ hfits (hfair' _)).discharge
  · intro q hq
    have hq : q ∈ h.pending ++ [p] := hq
    rw [hp] at hq
    rw [List.mem_singleton.1 hq]
    exact hfair _
  · intro hmem
    exact absurd hmem (Finset.notMem_erase victim h.active)
  · intro _ _
    apply told_sendThen hh₁.toRight hb
    exact decide_eq_true hh.id

theorem addActive (hh : h.Handling net x before free) (hp : h.pending = [])
    (hnext : next.Fair net) (hann : next.Announces n ∨ n ∈ free)
    (hs : h.addActive n next d = some h') : h'.Handling net x before free := by
  unfold HyParView.addActive at hs
  split at hs
  · exact hh.proceed hp hnext hs
  · rename_i hn
    split at hs
    · exact hh.proceed hp hnext hs
    · rename_i haddr
      have hb : Booked h.id h.book n :=
        ⟨fun heq => hn (.inl heq), Option.ne_none_iff_exists'.1 haddr⟩
      have hh₁ := hh.withPassive (n := n) (p := h.passive.erase n)
        (fun m hm => .inl (Finset.mem_of_mem_erase hm))
      dsimp only at hs
      split at hs
      · have hfits : HpvPending.Fits h.id h.book (.addActive n next) := hb
        have hfair : ∀ sent, HpvPending.Fair net h.id sent free (.addActive n next) :=
          fun _ => ⟨hnext, hann⟩
        exact hh₁.dropRandomActive hp hfits hfair hs
      · exact (hh₁.insertActive hb).announce hp hb (Finset.mem_insert_self n h.active) hnext hann hs

theorem integrate {nodes : List (Option (ν × A))} (hh : h.Handling net x before free)
    (hnodes : ∀ q ∈ nodes, ∀ p ∈ q, p.2 = net.address p.1)
    (hs : h.integrate nodes picks = some h') : h'.Handling net x before free := by
  induction nodes generalizing h picks with
  | nil =>
    cases hs
    exact hh
  | cons q nodes ih =>
    cases q with
    | none =>
      cases hs
      exact hh
    | some q =>
      obtain ⟨nid, address⟩ := q
      have hrest : ∀ q ∈ nodes, ∀ p ∈ q, p.2 = net.address p.1 :=
        fun q hq => hnodes q (List.mem_cons_of_mem _ hq)
      simp only [HyParView.integrate] at hs
      split at hs
      · exact ih hh hrest hs
      · obtain ⟨⟨h₁, picks'⟩, ha, hs⟩ := Option.bind_eq_some_iff.1 hs
        have haddr := hnodes _ List.mem_cons_self _ rfl
        exact ih ((hh.record haddr).addPassive ha) hrest hs

theorem fair_withAddresses (hr : h.Right net x) (sample : List ν) :
    ∀ q ∈ h.withAddresses sample, ∀ p ∈ q, p.2 = net.address p.1 := by
  intro q hq p hp
  obtain ⟨k, _, hk⟩ := List.mem_filterMap.1 hq
  obtain ⟨a, ha, rfl⟩ := Option.map_eq_some_iff.1 hk
  cases hp
  exact hr.book k a ha

theorem shuffle (hh : h.Handling net x before free) (hp : h.pending = [])
    (hs : h.shuffle d picks = some h') :
    h'.Handling net x before free := by
  unfold HyParView.shuffle at hs
  split at hs
  · cases hs
    exact hh
  · obtain ⟨⟨target, _⟩, _, hs⟩ := Option.bind_eq_some_iff.1 hs
    dsimp only at hs
    split at hs
    · cases hs
      refine hh.sendThen hp ⟨fun k hk => ?_, fair_withAddresses hh.toRight d.sample⟩ trivial
        trivial
      cases hk
      rw [hh.address, hh.id]
    · cases hs

theorem tickLoop (hh : h.Handling net x before free) (hp : h.pending = [])
    (hs : h.tickLoop d = some h') :
    h'.Handling net x before free := by
  unfold HyParView.tickLoop at hs
  split at hs
  · obtain ⟨⟨candidate, _⟩, hc, hs⟩ := Option.bind_eq_some_iff.1 hs
    cases hs
    have hb := hh.booked candidate (.inr (mem_of_choose hc))
    have hh₁ := hh.withPassive (n := candidate) (p := h.passive.erase candidate)
      (fun m hm => .inl (Finset.mem_of_mem_erase hm))
    refine hh₁.sendThen hp (fun k hk => ?_) hb
      (told_sendThen hh₁.toRight hb (decide_eq_true rfl))
    cases hk
    rw [hh.address, hh.id]
  · exact hh.shuffle hp hs

theorem recordAny {o : Option ν} (hh : h.Handling net x before free)
    (ho : ∀ k ∈ o, a = net.address k) : (h.recordAny o a).Handling net x before free := by
  cases o with
  | none => exact hh
  | some k => exact hh.record (ho k rfl)

theorem onForwardJoin {src : Option ν} (hh : h.Handling net x before free) (hp : h.pending = [])
    (ha : a = net.address n) (hs : h.onForwardJoin src n a ttl d = some h') :
    h'.Handling net x before free := by
  have hh₁ := hh.record ha
  have hp₁ : (h.record n a).pending = [] := (h.record_fields n a).2.2.1.trans hp
  unfold HyParView.onForwardJoin at hs
  dsimp only at hs
  split at hs
  · refine hh₁.addActive hp₁ ?_ (.inl ?_) hs
    · exact trivial
    · exact rfl
  · rename_i hlarge
    obtain ⟨⟨h₂, picks⟩, hdeposit, hs⟩ := Option.bind_eq_some_iff.1 hs
    have hsame : ∃ passive, h₂ = { h.record n a with passive := passive } ∧
        ∀ m ∈ passive, m ∈ (h.record n a).passive ∨
          m = n ∧ Booked (h.record n a).id (h.record n a).book n := by
      unfold deposit at hdeposit
      split at hdeposit
      · exact addPassive_cases hdeposit
      · cases hdeposit
        exact ⟨_, rfl, fun m hm => .inl hm⟩
    obtain ⟨passive, rfl, hpassive⟩ := hsame
    have hh₂ := hh₁.withPassive hpassive
    cases src with
    | none =>
      cases hs
      exact hh₂
    | some src =>
      simp only [HyParView.forward] at hs
      split at hs
      · obtain ⟨⟨nxt, _⟩, _, hs⟩ := Option.bind_eq_some_iff.1 hs
        cases hs
        refine hh₂.sendThen hp₁ (fun k hk => ?_) trivial trivial
        cases hk
        exact ha
      · rename_i hnone
        have hmem : n ∈ (h.record n a).active := by
          by_contra hnot
          have hsub : (h.record n a).active ⊆ {src} := by
            intro k hk
            by_contra hne
            apply hnone
            apply Finset.ne_empty_of_mem (a := k)
            refine Finset.mem_sdiff.2 ⟨hk, fun hpair => ?_⟩
            rcases Finset.mem_insert.1 hpair with rfl | hkn
            · exact hne (Finset.mem_singleton_self k)
            · exact hnot (Finset.mem_singleton.1 hkn ▸ hk)
          exact hlarge (.inr (Finset.card_le_card hsub))
        rw [addActive_of_mem { h.record n a with passive := passive } hmem] at hs
        refine hh₂.proceed hp₁ ?_ hs
        exact trivial

theorem replyShuffle {nodes : List (Option (ν × A))} (hh : h.Handling net x before free)
    (hp : h.pending = []) (hnodes : ∀ q ∈ nodes, ∀ p ∈ q, p.2 = net.address p.1)
    (hs : h.replyShuffle origin nodes d = some h') : h'.Handling net x before free := by
  cases origin with
  | none =>
    cases hs
    exact hh
  | some origin =>
    simp only [HyParView.replyShuffle] at hs
    split at hs
    · cases hs
      refine hh.sendThen hp ⟨fun k hk => ?_, fun l hl => ?_⟩ trivial hnodes
      · cases hk
        rw [hh.address, hh.id]
      · cases hl
        exact fair_withAddresses hh.toRight d.sample
    · cases hs

theorem onShuffle {nodes : List (Option (ν × A))} {src origin : Option ν}
    (hh : h.Handling net x before free) (hp : h.pending = [])
    (horigin : ∀ k ∈ origin, a = net.address k)
    (hnodes : ∀ q ∈ nodes, ∀ p ∈ q, p.2 = net.address p.1)
    (hs : h.onShuffle src origin a nodes ttl d = some h') : h'.Handling net x before free := by
  have hh₁ := hh.recordAny horigin
  have hp₁ : (h.recordAny origin a).pending = [] := by
    cases origin with
    | none => exact hp
    | some k => exact (h.record_fields k a).2.2.1.trans hp
  unfold HyParView.onShuffle at hs
  dsimp only at hs
  split at hs
  · cases src with
    | none =>
      cases hs
      exact hh₁
    | some src =>
      dsimp only at hs
      split at hs
      · obtain ⟨⟨nxt, _⟩, _, hs⟩ := Option.bind_eq_some_iff.1 hs
        cases hs
        exact hh₁.sendThen hp₁ ⟨horigin, hnodes⟩ trivial hnodes
      · exact hh₁.replyShuffle hp₁ hnodes hs
  · exact hh₁.replyShuffle hp₁ hnodes hs

theorem receive (hh : h.Handling net x before m.settles) (hp : h.pending = []) (hm : m.Fair net)
    (hs : h.receive m d = some h') : h'.Handling net x before m.settles := by
  have hp₁ : ∀ n a, (h.record n a).pending = [] :=
    fun n a => (h.record_fields n a).2.2.1.trans hp
  unfold HyParView.receive at hs
  split at hs
  · have ha := hm _ rfl
    refine (hh.record ha).addActive (hp₁ _ _) ?_ (.inl ?_) hs
    · exact ha
    · exact rfl
  · exact hh.onForwardJoin hp (hm _ rfl) hs
  · rename_i nid a high
    have hh₁ := hh.record (hm nid rfl)
    unfold onNeighbor at hs
    dsimp only at hs
    split at hs
    · refine hh₁.addActive (hp₁ _ _) ?_ (.inl ?_) hs
      · exact trivial
      · exact ⟨rfl, rfl⟩
    · refine hh₁.proceed (hp₁ _ _) ?_ hs
      exact trivial
  · rename_i nid a accepted
    have hh₁ := hh.record (hm nid rfl)
    unfold onNeighborReply at hs
    dsimp only at hs
    split at hs
    · rename_i haccepted
      subst haccepted
      refine hh₁.addActive (hp₁ _ _) ?_ (.inr (Set.mem_singleton nid)) hs
      exact trivial
    · obtain ⟨⟨h₂, picks⟩, hadd, rfl⟩ := Option.map_eq_some_iff.1 hs
      exact hh₁.addPassive hadd
  · rename_i nid
    unfold onDisconnect at hs
    split at hs
    · obtain ⟨⟨h₁, picks⟩, hadd, rfl⟩ := Option.map_eq_some_iff.1 hs
      have hh₁ := hh.eraseActive nid
      have hfree : insert nid (HpvMessage.disconnect (A := A) (some nid)).settles =
          (HpvMessage.disconnect (A := A) (some nid)).settles :=
        Set.insert_eq_of_mem (Set.mem_singleton nid)
      rw [hfree] at hh₁
      exact hh₁.addPassive hadd
    · cases hs
      exact hh
  · exact hh.onShuffle hp hm.1 hm.2 hs
  · rename_i nodeId a nodes
    have hh₁ := hh.recordAny hm.1
    unfold onShuffleReply at hs
    cases nodes with
    | none =>
      cases hs
      exact hh₁
    | some nodes => exact hh₁.integrate (hm.2 nodes rfl) hs
  · cases hs
    exact hh

theorem resume (hh : h.Handling net x before free) {p : HpvPending ν A}
    {rest : List (HpvPending ν A)} (hpend : h.pending = p :: rest)
    (hs : { h with pending := rest }.resume p d = some h') : h'.Handling net x before free := by
  have hnil : rest = [] := by
    have hlen := hh.single
    rw [hpend] at hlen
    exact List.length_eq_zero_iff.1 (Nat.le_zero.1 (Nat.le_of_succ_le_succ hlen))
  subst hnil
  obtain ⟨hfits, hfair⟩ := hh.pending p (hpend ▸ List.mem_singleton_self p)
  have hh₁ : { h with pending := [] }.Handling net x before free :=
    ⟨⟨hh.id, hh.address, hh.book, hh.booked⟩, hh.fair, fun q hq => absurd hq List.not_mem_nil,
      Nat.zero_le 1, hh.added, hh.removed⟩
  cases p with
  | addActive nid next =>
    exact (hh₁.insertActive hfits).announce rfl hfits (Finset.mem_insert_self nid h.active)
      hfair.1 hfair.2 hs
  | tick candidate =>
    have htold : Told h.sent (net.address candidate) (HpvMessage.invites x) := hh.id ▸ hfair
    have hh₂ := (hh₁.insertActive hfits).discharge
      (fun q hq => absurd hq List.not_mem_nil) (fun _ _ => htold)
      (fun hnot _ => absurd (Finset.mem_insert_self candidate h.active) hnot)
    exact hh₂.tickLoop rfl hs
  | integrate nodes => exact hh₁.integrate hfair hs
  | send next => exact hh₁.proceed rfl hfair hs

theorem drain (hh : h.Handling net x before free) (hs : h.drain ds = some h') :
    h'.Handling net x before free ∧ h'.pending = [] := by
  induction ds generalizing h with
  | nil =>
    cases hpend : h.pending with
    | nil =>
      simp only [HyParView.drain, hpend, Option.some.injEq] at hs
      subst hs
      exact ⟨hh, hpend⟩
    | cons p pending =>
      simp only [HyParView.drain, hpend] at hs
      cases hs
  | cons d ds ih =>
    cases hpend : h.pending with
    | nil =>
      simp only [HyParView.drain, hpend] at hs
      cases hs
    | cons p pending =>
      simp only [HyParView.drain, hpend] at hs
      obtain ⟨h₁, hr, hs⟩ := Option.bind_eq_some_iff.1 hs
      exact ih (hh.resume hpend hr) hs

end Handling

end HyParView

end

end Suprime
