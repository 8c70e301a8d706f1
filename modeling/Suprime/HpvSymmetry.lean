import Suprime.HpvLinks

namespace Suprime
set_option autoImplicit true

namespace HyParView

variable {ν A : Type} [DecidableEq ν] [Truthy ν] [Truthy A] {net : HpvNet ν A}
  {h h' : HyParView ν A} {x n : ν} {m : HpvMessage ν A}

/-- The node is a member, or will be when the handler is done. -/
def Reaches (n : ν) (h : HyParView ν A) : Prop :=
  (n ∈ h.active ∧ ∀ p ∈ h.pending, ∃ next, p = .send next) ∨
    ∃ next, h.pending = [.addActive n next]

section
omit [Truthy ν] [Truthy A]

theorem reaches_proceed (hp : ∀ p ∈ h.pending, ∃ next, p = .send next) (hn : n ∈ h.active)
    (hs : h.proceed next d = some h') : h'.Reaches n := by
  obtain ⟨hactive, hsend⟩ := proceed_fields hs
  left
  constructor
  · rw [hactive]
    exact hn
  · intro p hmem
    rcases hsend p hmem with hold | hnew
    · exact hp p hold
    · exact hnew

theorem reaches_addActive (hp : h.pending = []) (hb : Booked h.id h.book n)
    (hs : h.addActive n next d = some h') : h'.Reaches n := by
  have hnone : ∀ p ∈ h.pending, ∃ next, p = .send next := by
    rw [hp]
    exact fun p hmem => absurd hmem List.not_mem_nil
  unfold addActive at hs
  split at hs
  · rename_i hn
    exact reaches_proceed hnone (hn.resolve_left hb.1) hs
  · split at hs
    · rename_i haddr
      obtain ⟨_, a, ha⟩ := hb
      cases haddr.symm.trans ha
    · dsimp only at hs
      split at hs
      · obtain ⟨⟨victim, picks⟩, hv, hs⟩ := Option.bind_eq_some_iff.1 hs
        obtain ⟨⟨h₁, picks'⟩, ha, hs⟩ := Option.bind_eq_some_iff.1 hs
        obtain ⟨passive, rfl, _⟩ := addPassive_cases ha
        cases hs
        right
        refine ⟨next, ?_⟩
        change h.pending ++ [.addActive n next] = _
        rw [hp]
        rfl
      · exact reaches_proceed (h := { h with active := insert n h.active, passive := _ }) hnone
          (Finset.mem_insert_self n h.active) hs

end

theorem Reaches.drain (hr : h.Reaches n) (hs : h.drain ds = some h') : n ∈ h'.active := by
  induction ds generalizing h with
  | nil =>
    cases hpend : h.pending with
    | nil =>
      simp only [HyParView.drain, hpend, Option.some.injEq] at hs
      subst hs
      rcases hr with ⟨hn, _⟩ | ⟨next, hp⟩
      · exact hn
      · cases hpend.symm.trans hp
    | cons p rest =>
      simp only [HyParView.drain, hpend] at hs
      cases hs
  | cons d ds ih =>
    cases hpend : h.pending with
    | nil =>
      simp only [HyParView.drain, hpend] at hs
      cases hs
    | cons p rest =>
      simp only [HyParView.drain, hpend] at hs
      obtain ⟨h₁, hresume, hs⟩ := Option.bind_eq_some_iff.1 hs
      apply ih ?_ hs
      rcases hr with ⟨hn, hp⟩ | ⟨next, hp⟩
      · rw [hpend] at hp
        obtain ⟨next, rfl⟩ := hp p List.mem_cons_self
        have hp : ∀ q ∈ rest, ∃ next, q = .send next :=
          fun q hq => hp q (List.mem_cons_of_mem _ hq)
        exact reaches_proceed (h := { h with pending := rest }) hp hn hresume
      · cases hpend.symm.trans hp
        exact reaches_proceed (h := { h with active := insert n h.active, pending := [] })
          (fun q hq => absurd hq List.not_mem_nil) (Finset.mem_insert_self n h.active) hresume

theorem reaches_receive (hr : h.Right net x) (hp : h.pending = []) (hm : m.Fair net)
    (hn : n ≠ x) (hinv : m.invites n = true)
    (haccept : ∀ a high, m = .neighbor (some n) a high →
      high = true ∨ h.active.card < h.activeSize)
    (hs : h.receive m d = some h') : h'.Reaches n := by
  have hrecord : ∀ a, a = net.address n → ∀ next,
      (h.record n a).addActive n next d = some h' → h'.Reaches n := by
    intro a ha next hs
    have hp₁ := (h.record_fields n a).2.2.1.trans hp
    exact reaches_addActive hp₁ (hr.booked_record ha hn) hs
  cases m with
  | neighbor nid a high =>
    cases nid with
    | none => cases hinv
    | some nid =>
      have hnid : nid = n := of_decide_eq_true hinv
      subst hnid
      have hcond := haccept a high rfl
      have hfields := h.record_fields nid a
      rw [← hfields.1, ← hfields.2.2.2.activeSize] at hcond
      change h.onNeighbor nid a high d = some h' at hs
      rw [onNeighbor, if_pos hcond] at hs
      exact hrecord a (hm nid rfl) _ hs
  | neighborReply nid a accepted =>
    cases nid with
    | none => cases hinv
    | some nid =>
      cases accepted with
      | false => cases hinv
      | true =>
        have hnid : nid = n := of_decide_eq_true hinv
        subst hnid
        exact hrecord a (hm nid rfl) .done hs
  | join => cases hinv
  | forwardJoin => cases hinv
  | disconnect => cases hinv
  | shuffle => cases hinv
  | shuffleReply => cases hinv
  | malformed => cases hinv

theorem notMem_of_disconnect (hs : h.receive (.disconnect (some n)) d = some h') :
    n ∉ h'.active ∧ h'.pending = h.pending := by
  change h.onDisconnect n d = some h' at hs
  unfold onDisconnect at hs
  split at hs
  · obtain ⟨⟨h₁, picks⟩, hadd, rfl⟩ := Option.map_eq_some_iff.1 hs
    obtain ⟨passive, rfl, _⟩ := addPassive_cases hadd
    exact ⟨Finset.notMem_erase n h.active, rfl⟩
  · rename_i hn
    cases hs
    exact ⟨hn, rfl⟩

theorem drain_of_idle (hp : h.pending = []) (hs : h.drain ds = some h') : h' = h := by
  cases ds with
  | nil =>
    simp only [HyParView.drain, hp, Option.some.injEq] at hs
    exact hs.symm
  | cons d ds =>
    simp only [HyParView.drain, hp] at hs
    cases hs

end HyParView

namespace HpvSwarm

variable {ν A : Type} [DecidableEq ν] [DecidableEq A] [Truthy ν] [Truthy A] {net : HpvNet ν A}
  {s s' : HpvSwarm ν A} {h h' : HyParView ν A} {x y n : ν} {m : HpvMessage ν A}

/-- No handler is running, addresses are right, and a message on its way mends every link that is
one in one direction only. -/
structure Ok (net : HpvNet ν A) (s : HpvSwarm ν A) : Prop where
  node : ∀ n, (s.node n).Right net n
  idle : ∀ n, (s.node n).pending = [] ∧ (s.node n).sent = []
  fair : ∀ p ∈ s.inFlight, p.2.Fair net
  links : ∀ x y, y ∈ (s.node x).active → x ∉ (s.node y).active → Mends net s.inFlight x y

section
omit [DecidableEq A]

theorem Ok.init (net : HpvNet ν A) : (HpvSwarm.init net).Ok net where
  node n := by
    refine ⟨rfl, rfl, fun k a hk => ?_, fun k hk => ?_⟩
    · cases hk
    · rcases hk with hk | hk
      · exact absurd hk (Finset.notMem_empty k)
      · exact absurd hk (Finset.notMem_empty k)
  idle _ := ⟨rfl, rfl⟩
  fair p hp := by cases hp
  links x y hy _ := absurd hy (Finset.notMem_empty y)

theorem Ok.handling (hok : s.Ok net) (n : ν) (free : Set ν) :
    (s.node n).Handling net n (s.node n).active free where
  toRight := hok.node n
  fair p hp := by
    rw [(hok.idle n).2] at hp
    cases hp
  pending p hp := by
    rw [(hok.idle n).1] at hp
    cases hp
  single := by
    rw [(hok.idle n).1]
    exact Nat.zero_le 1
  added y hy hnot _ := absurd hy hnot
  removed y hy hnot _ := absurd hy hnot

theorem Mends.append (hm : Mends net rest x y) (l : List (A × HpvMessage ν A)) :
    Mends net (rest ++ l) x y :=
  hm.imp (told_append rest) (told_append rest)

/-- A handler is done. The links that it did not change and those that it changed without telling
the other node are mended by what else is in flight. -/
theorem Ok.ran {free : Set ν} (hok : s.Ok net) (rest : List (A × HpvMessage ν A))
    (hrest : ∀ p ∈ rest, p ∈ s.inFlight) (hh : h.Handling net n (s.node n).active free)
    (hidle : h.pending = [])
    (hout : ∀ y ∈ h.active, n ∉ (s.node y).active → y ∈ (s.node n).active ∨ y ∈ free →
      Mends net rest n y)
    (hin : ∀ x, x ∉ h.active → n ∈ (s.node x).active → x ∉ (s.node n).active ∨ x ∈ free →
      Mends net rest x n)
    (hothers : ∀ x y, x ≠ n → y ≠ n → Mends net s.inFlight x y → Mends net rest x y) :
    ({ s with inFlight := rest }.ran n h).Ok net := by
  have hself : (Function.update s.node n { h with sent := [] }) n = { h with sent := [] } :=
    Function.update_self n _ _
  have hne : ∀ k, k ≠ n → (Function.update s.node n { h with sent := [] }) k = s.node k :=
    fun k hk => Function.update_of_ne hk _ _
  constructor
  · intro k
    change ((Function.update s.node n { h with sent := [] }) k).Right net k
    by_cases hk : k = n
    · subst hk
      rw [hself]
      exact ⟨hh.id, hh.address, hh.book, hh.booked⟩
    · rw [hne k hk]
      exact hok.node k
  · intro k
    change ((Function.update s.node n { h with sent := [] }) k).pending = [] ∧
      ((Function.update s.node n { h with sent := [] }) k).sent = []
    by_cases hk : k = n
    · subst hk
      rw [hself]
      exact ⟨hidle, rfl⟩
    · rw [hne k hk]
      exact hok.idle k
  · intro p hp
    rcases List.mem_append.1 hp with hp | hp
    · exact hok.fair p (hrest p hp)
    · exact hh.fair p hp
  · intro x y hy hx
    change y ∈ ((Function.update s.node n { h with sent := [] }) x).active at hy
    change x ∉ ((Function.update s.node n { h with sent := [] }) y).active at hx
    change Mends net (rest ++ h.sent) x y
    by_cases hxn : x = n
    · subst hxn
      rw [hself] at hy
      have hyx : y ≠ x := fun heq => (hh.booked y (.inl hy)).1 (heq.trans hh.id.symm)
      rw [hne y hyx] at hx
      by_cases hold : y ∈ (s.node x).active ∨ y ∈ free
      · exact (hout y hy hx hold).append h.sent
      · obtain ⟨hnew, hfree⟩ := not_or.1 hold
        obtain ⟨p, hp, htold⟩ := hh.added y hy hnew hfree
        exact .inl ⟨p, List.mem_append_right rest hp, htold⟩
    · rw [hne x hxn] at hy
      by_cases hyn : y = n
      · subst hyn
        rw [hself] at hx
        by_cases hold : x ∉ (s.node y).active ∨ x ∈ free
        · exact (hin x hx hy hold).append h.sent
        · obtain ⟨hwas, hfree⟩ := not_or.1 hold
          obtain ⟨p, hp, htold⟩ := hh.removed x (not_not.1 hwas) hx hfree
          exact .inr ⟨p, List.mem_append_right rest hp, htold⟩
      · rw [hne y hyn] at hx
        exact (hothers x y hxn hyn (hok.links x y hy hx)).append h.sent

end

section
omit [DecidableEq A] [DecidableEq ν] [Truthy ν] [Truthy A]

theorem told_eraseIdx {inFlight : List (A × HpvMessage ν A)} {a b : A}
    {kind : HpvMessage ν A → Bool} (ht : Told inFlight a kind) (hi : inFlight[i]? = some (b, m))
    (hother : a ≠ b ∨ kind m = false) : Told (inFlight.eraseIdx i) a kind := by
  obtain ⟨p, hp, ha, hkind⟩ := ht
  obtain ⟨j, hj⟩ := List.mem_iff_getElem?.1 hp
  refine ⟨p, List.mem_eraseIdx_iff_getElem?.2 ⟨j, ?_, hj⟩, ha, hkind⟩
  rintro rfl
  cases hi.symm.trans hj
  rcases hother with hne | hfalse
  · exact hne ha.symm
  · exact Bool.false_ne_true (hfalse.symm.trans hkind)

end

section
omit [DecidableEq A] [Truthy ν] [Truthy A]

theorem eq_of_severs (hm : m.severs n = true) : m = .disconnect (some n) := by
  cases m with
  | disconnect nid =>
    cases nid with
    | none => cases hm
    | some nid => rw [of_decide_eq_true hm]
  | join => cases hm
  | forwardJoin => cases hm
  | neighbor => cases hm
  | neighborReply => cases hm
  | shuffle => cases hm
  | shuffleReply => cases hm
  | malformed => cases hm

end

section
omit [DecidableEq A] [DecidableEq ν] [Truthy ν] [Truthy A]

theorem mem_settles (hn : n ∈ m.settles) :
    (∃ a, m = .neighborReply (some n) a true) ∨ m = .disconnect (some n) := by
  unfold HpvMessage.settles at hn
  split at hn
  · rw [Set.mem_singleton_iff.1 hn]
    exact .inl ⟨_, rfl⟩
  · rw [Set.mem_singleton_iff.1 hn]
    exact .inr rfl
  · cases hn

end

section
omit [DecidableEq A]

theorem Ok.deliver (hok : s.Ok net) (hi : s.inFlight[i]? = some (net.address n, m))
    (hmended : s.Mended net (s.inFlight.eraseIdx i) n m)
    (hreceive : (s.node n).receive m d = some h) (hdrain : h.drain ds = some h') :
    ({ s with inFlight := s.inFlight.eraseIdx i }.ran n h').Ok net := by
  have hm := hok.fair _ (List.mem_of_getElem? hi)
  have hp := (hok.idle n).1
  obtain ⟨hh, hidle⟩ := ((hok.handling n m.settles).receive hp hm hreceive).drain hdrain
  have hnot : ∀ k ∈ h'.active, k ≠ n := fun k hk heq =>
    (hh.booked k (.inl hk)).1 (heq.trans hh.id.symm)
  have haddr : ∀ k, k ≠ n → net.address k ≠ net.address n :=
    fun k hk heq => hk (net.distinct heq)
  have hsevers : ∀ k ∈ h'.active, m.severs k = false := by
    intro k hk
    rw [← Bool.not_eq_true]
    intro hsevers
    cases eq_of_severs hsevers
    obtain ⟨hgone, hpend⟩ := HyParView.notMem_of_disconnect hreceive
    rw [HyParView.drain_of_idle (hpend.trans hp) hdrain] at hk
    exact hgone hk
  have hrefused : ∀ k, k ≠ n → k ∉ h'.active → m.invites k = true →
      ∃ a, m = .neighbor (some k) a false ∧ (s.node n).activeSize ≤ (s.node n).active.card := by
    intro k hk hgone hinv
    by_contra hnone
    apply hgone
    refine (HyParView.reaches_receive (hok.node n) hp hm hk hinv ?_ hreceive).drain hdrain
    intro a high hmsg
    cases high with
    | true => exact .inl rfl
    | false =>
      right
      rw [← not_le]
      exact fun hle => hnone ⟨a, hmsg, hle⟩
  apply hok.ran _ (fun p hp => List.mem_of_mem_eraseIdx hp) hh hidle
  · intro y hy hny hold
    by_cases hyn : y ∈ (s.node n).active
    · rcases hok.links n y hyn hny with ht | ht
      · exact .inl (told_eraseIdx ht hi (.inl (haddr y (hnot y hy))))
      · exact .inr (told_eraseIdx ht hi (.inr (hsevers y hy)))
    · rcases mem_settles (hold.resolve_left hyn) with ⟨a, rfl⟩ | rfl
      · exact hmended rfl hyn hny
      · have hsev := hsevers y hy
        rw [HpvMessage.severs, decide_eq_true rfl] at hsev
        cases hsev
  · intro x hx hnx hold
    have hxn : x ≠ n := fun heq =>
      ((hok.node x).booked n (.inl hnx)).1 (heq.symm.trans (hok.node x).id.symm)
    by_cases hxin : x ∈ (s.node n).active
    · rcases mem_settles (hold.resolve_left (not_not.2 hxin)) with ⟨a, rfl⟩ | rfl
      · obtain ⟨_, hmsg, _⟩ := hrefused x hxn hx (decide_eq_true rfl)
        cases hmsg
      · exact hmended hxin hnx
    · rcases hok.links x n hnx hxin with ht | ht
      · by_cases hinv : m.invites x = true
        · obtain ⟨a, rfl, hfull⟩ := hrefused x hxn hx hinv
          exact hmended rfl hfull hnx hxin
        · exact .inl (told_eraseIdx ht hi (.inr (Bool.not_eq_true _ ▸ hinv)))
      · exact .inr (told_eraseIdx ht hi (.inl (haddr x hxn)))
  · intro x y hxn hyn hmends
    rcases hmends with ht | ht
    · exact .inl (told_eraseIdx ht hi (.inl (haddr y hyn)))
    · exact .inr (told_eraseIdx ht hi (.inl (haddr x hxn)))

end

theorem Ok.step (hok : s.Ok net) (hmeets : s.Meets net a) (hs : s.step net a = some s') :
    s'.Ok net := by
  cases a with
  | join n contact =>
    cases hs
    refine ⟨hok.node, hok.idle, fun p hp => ?_, fun x y hy hx => (hok.links x y hy hx).append _⟩
    rcases List.mem_append.1 hp with hp | hp
    · exact hok.fair p hp
    · rw [List.mem_singleton.1 hp]
      intro k hk
      cases hk
      rfl
  | tick n d ds =>
    obtain ⟨h, htick, hs⟩ := Option.bind_eq_some_iff.1 hs
    obtain ⟨h', hdrain, hs⟩ := Option.bind_eq_some_iff.1 hs
    cases hs
    obtain ⟨hh, hidle⟩ :=
      ((hok.handling n ∅).tickLoop (hok.idle n).1 htick).drain hdrain
    apply hok.ran s.inFlight (fun p hp => hp) hh hidle
    · intro y hy hny hold
      exact hok.links n y (hold.resolve_right (Set.notMem_empty y)) hny
    · intro x hx hnx hold
      exact hok.links x n hnx (hold.resolve_right (Set.notMem_empty x))
    · exact fun x y _ _ hmends => hmends
  | deliver i n d ds =>
    obtain ⟨⟨a, m⟩, hi, hs⟩ := Option.bind_eq_some_iff.1 hs
    dsimp only at hs
    split at hs
    · rename_i ha
      subst ha
      obtain ⟨h, hreceive, hs⟩ := Option.bind_eq_some_iff.1 hs
      obtain ⟨h', hdrain, hs⟩ := Option.bind_eq_some_iff.1 hs
      cases hs
      exact hok.deliver hi (hmeets _ hi) hreceive hdrain
    · cases hs

/-- In a run in which every delivery that leaves a link in one direction finds another message on
its way that mends it, links are symmetric whenever no message is in flight. -/
theorem links_symmetric_at_rest
    (hrun : Run (HpvSwarm.step net) (HpvSwarm.init net) past s)
    (hmeets : ∀ q ∈ past, q.1.Meets net q.2) (hrest : s.inFlight = []) (x y : ν) :
    x ∈ (s.node y).active ↔ y ∈ (s.node x).active := by
  have hok := hrun.invariant (I := fun s => s.Ok net) (C := fun s a => s.Meets net a) hmeets
    (.init net) (fun s a s' hs hm hstep => hs.step hm hstep)
  have hlinks : ∀ x y, y ∈ (s.node x).active → x ∈ (s.node y).active := by
    intro x y hy
    by_contra hx
    have hmends := hok.links x y hy hx
    rw [hrest] at hmends
    rcases hmends with ⟨p, hp, _⟩ | ⟨p, hp, _⟩
    · cases hp
    · cases hp
  exact ⟨hlinks y x, hlinks x y⟩

end HpvSwarm

inductive OverlayNode
  | a
  | b
  | c
  | d
  deriving DecidableEq

instance : Truthy OverlayNode := ⟨fun _ => true⟩

def smallOverlay : HpvNet OverlayNode OverlayNode where
  address := id
  activeSize _ := 2
  passiveSize _ := 4
  arwl _ := 0
  prwl _ := 0
  shuffleTtl _ := 1
  distinct := Function.injective_id
  truthyId _ := rfl
  truthyAddress _ := rfl
  passivePos _ := by decide

def noDraw : Draws OverlayNode := ⟨[], [], none⟩

def peerDraw (n : OverlayNode) : Draws OverlayNode := ⟨[], [], some n⟩

/-- Nodes `b`, `c` and `d` join through `a`, which drops `b`. -/
def threeJoins : List (HpvSwarmAction OverlayNode) :=
  [.join .b .a, .deliver 0 .a noDraw [noDraw], .deliver 0 .b noDraw [noDraw],
    .deliver 0 .a noDraw [], .join .c .a, .deliver 0 .a noDraw [peerDraw .b, noDraw],
    .deliver 0 .c noDraw [noDraw], .deliver 1 .a noDraw [], .deliver 0 .b noDraw [noDraw],
    .deliver 0 .c noDraw [noDraw], .deliver 0 .b noDraw [], .join .d .a,
    .deliver 0 .a ⟨[.b], [], none⟩ [noDraw, peerDraw .c, noDraw], .deliver 0 .b noDraw []]

theorem links_symmetric_at_rest_of_four : ∃ past s,
    Run (HpvSwarm.step smallOverlay) (HpvSwarm.init smallOverlay) past s ∧
      (s.node .a).active = {.c, .d} ∧
      ∀ x y, x ∈ (s.node y).active ↔ y ∈ (s.node x).active := by
  obtain ⟨past, s, hrun, hmeets, hs⟩ := exists_run_of_execWhere (HpvSwarm.step smallOverlay)
    (fun s a => s.Meets smallOverlay a) (HpvSwarm.init smallOverlay)
    (threeJoins ++ [.deliver 0 .d noDraw [noDraw], .deliver 1 .a noDraw [],
      .deliver 0 .c ⟨[.b], [], none⟩ [noDraw, noDraw], .deliver 0 .b noDraw [],
      .deliver 0 .d noDraw [noDraw], .deliver 0 .c noDraw []])
    (fun s => (s.inFlight.isEmpty, decide ((s.node .a).active = {.c, .d}))) (true, true)
    (by decide)
  obtain ⟨hrest, hactive⟩ := Prod.mk.inj hs
  exact ⟨past, s, hrun, of_decide_eq_true hactive,
    HpvSwarm.links_symmetric_at_rest hrun hmeets (List.isEmpty_iff.1 hrest)⟩

/-- Node `b` promotes `a`, which refuses, and keeps it. -/
theorem refused_link_stays : ∃ past s,
    Run (HpvSwarm.step smallOverlay) (HpvSwarm.init smallOverlay) past s ∧ s.inFlight = [] ∧
      ¬ (OverlayNode.a ∈ (s.node .b).active ↔ .b ∈ (s.node .a).active) := by
  obtain ⟨past, s, hrun, hs⟩ := exists_run_of_exec (HpvSwarm.step smallOverlay)
    (HpvSwarm.init smallOverlay)
    (threeJoins ++ [.tick .b ⟨[.a], [], none⟩ [⟨[.c], [.a, .c], none⟩, noDraw],
      .deliver 2 .a noDraw [noDraw], .deliver 3 .b noDraw [], .deliver 0 .d noDraw [noDraw],
      .deliver 2 .a noDraw [], .deliver 0 .c ⟨[.b], [], none⟩ [noDraw, noDraw],
      .deliver 0 .c ⟨[], [.a, .b, .d], none⟩ [noDraw], .deliver 0 .b noDraw [],
      .deliver 0 .d noDraw [noDraw], .deliver 0 .b noDraw [], .deliver 0 .c noDraw []])
    (fun s => (s.inFlight.isEmpty, decide (.a ∈ (s.node .b).active),
      decide (.b ∈ (s.node .a).active))) (true, true, false) (by decide)
  obtain ⟨hrest, hlinks⟩ := Prod.mk.inj hs
  obtain ⟨ha, hb⟩ := Prod.mk.inj hlinks
  refine ⟨past, s, hrun, List.isEmpty_iff.1 hrest, fun hiff => ?_⟩
  exact of_decide_eq_false hb (hiff.1 (of_decide_eq_true ha))

end Suprime
