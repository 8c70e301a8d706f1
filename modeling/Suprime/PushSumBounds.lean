import Mathlib.Algebra.Order.Field.Basic
import Mathlib.Algebra.Order.Ring.Rat
import Mathlib.Tactic.Linarith
import Suprime.MassConservation

namespace Suprime
set_option autoImplicit true

variable {ν κ : Type} [DecidableEq ν] [DecidableEq κ]

/-- A mass whose value lies between two multiples of its weight. -/
structure Mass.Between (lo hi : ℚ) (m : Mass) : Prop where
  weight : 0 ≤ m.w
  low : lo * m.w ≤ m.s
  high : m.s ≤ hi * m.w

namespace Mass.Between

theorem zero (lo hi : ℚ) : Between lo hi ⟨0, 0⟩ :=
  ⟨le_rfl, (mul_zero lo).le, (mul_zero hi).ge⟩

theorem add {m m' : Mass} (h : Between lo hi m) (h' : Between lo hi m') :
    Between lo hi (m.add m') := by
  refine ⟨add_nonneg h.weight h'.weight, ?_, ?_⟩
  · calc
      lo * (m.w + m'.w) = lo * m.w + lo * m'.w := mul_add _ _ _
      _ ≤ m.s + m'.s := add_le_add h.low h'.low
  · calc
      m.s + m'.s ≤ hi * m.w + hi * m'.w := add_le_add h.high h'.high
      _ = hi * (m.w + m'.w) := (mul_add _ _ _).symm

theorem foldl {l : List Mass} (h : Between lo hi m) (hl : ∀ x ∈ l, Between lo hi x) :
    Between lo hi (l.foldl Mass.add m) := by
  induction l generalizing m with
  | nil => exact h
  | cons x l ih =>
    exact ih (h.add (hl x List.mem_cons_self)) (fun y hy => hl y (List.mem_cons_of_mem _ hy))

theorem total {l : List Mass} (hl : ∀ x ∈ l, Between lo hi x) : Between lo hi (Mass.total l) :=
  (zero lo hi).foldl hl

theorem keep {m : Mass} (h : Between lo hi m) : Between lo hi m.keep := by
  obtain ⟨hw, hlow, hhigh⟩ := h
  refine ⟨?_, ?_, ?_⟩
  · change 0 ≤ m.w / 2
    linarith
  · change lo * (m.w / 2) ≤ m.s / 2
    linarith
  · change m.s / 2 ≤ hi * (m.w / 2)
    linarith

theorem send {m : Mass} (h : Between lo hi m) : Between lo hi m.send := by
  obtain ⟨hw, hlow, hhigh⟩ := h
  refine ⟨?_, ?_, ?_⟩
  · change 0 ≤ m.w - m.w / 2
    linarith
  · change lo * (m.w - m.w / 2) ≤ m.s - m.s / 2
    linarith
  · change m.s - m.s / 2 ≤ hi * (m.w - m.w / 2)
    linarith

theorem ratio {m : Mass} (h : Between lo hi m) (hw : 0 < m.w) : lo ≤ m.s / m.w ∧ m.s / m.w ≤ hi :=
  ⟨(le_div_iff₀ hw).2 h.low, (div_le_iff₀ hw).2 h.high⟩

end Mass.Between

namespace PushSumAggregator

def average (a : PushSumAggregator κ) (key : κ) (value : ℚ) : PushSumAggregator κ :=
  a.start key value 1

/-- Division as Python does it: by zero it raises. -/
def pyDiv (x y : ℚ) : Option ℚ := if y = 0 then none else some (x / y)

/-- `halve` with the division as it is evaluated. -/
def halveRaising (a : PushSumAggregator κ) (key : κ) (total : Mass) :
    Option (PushSumAggregator κ) := do
  let a ← if 0 < total.w then do
      let x ← pyDiv total.s total.w
      some { a with estimate := a.estimate.set key x }
    else some a
  some ((a.setList key []).append key total.keep)

/-- `round` with its divisions as they are evaluated. -/
def roundRaising (a : PushSumAggregator κ) (peer : Option ν) :
    List (κ × ℕ) → Option (PushSumAggregator κ × Option (ν × κ × Mass) × List (κ × ℕ))
  | [] => some (a, none, [])
  | (key, i) :: todo =>
    if a.list i = [] then a.roundRaising peer todo
    else do
      let total := Mass.total (a.list i)
      let a ← a.halveRaising key total
      match peer with
      | none => (a.append key total.send).roundRaising peer todo
      | some target => some (a, some (target, key, total.send), todo)

theorem halveRaising_eq (a : PushSumAggregator κ) (key : κ) (total : Mass) :
    a.halveRaising key total = some (a.halve key total) := by
  unfold halveRaising halve
  by_cases hw : 0 < total.w
  · rw [if_pos hw, if_pos hw, pyDiv, if_neg hw.ne']
    rfl
  · rw [if_neg hw, if_neg hw]
    rfl

section
omit [DecidableEq ν]

theorem roundRaising_eq (a : PushSumAggregator κ) (peer : Option ν) (todo : List (κ × ℕ)) :
    a.roundRaising peer todo = some (a.round peer todo) := by
  induction todo generalizing a with
  | nil => rfl
  | cons p todo ih =>
    obtain ⟨key, i⟩ := p
    rw [roundRaising, round]
    split
    · exact ih a
    · dsimp only
      rw [halveRaising_eq]
      cases peer with
      | none => exact ih _
      | some target => rfl

end

/-- Every list object belongs to the key that it is owned by, and the masses in the lists of one
key and its estimate lie between the bounds. -/
structure Bounded (lo hi : ℚ) (key : κ) (own : ℕ → κ) (a : PushSumAggregator κ) : Prop where
  inbox : a.inbox.get k = some i → i < a.lists.length ∧ own i = k
  masses : i < a.lists.length → own i = key → ∀ m ∈ a.list i, m.Between lo hi
  estimate : a.estimate.get key = some x → lo ≤ x ∧ x ≤ hi

/-- A round has the owner of each list that it has still to read. -/
def Named (own : ℕ → κ) (a : PushSumAggregator κ) (todo : List (κ × ℕ)) : Prop :=
  ∀ p ∈ todo, p.2 < a.lists.length ∧ own p.2 = p.1

/-- Lists are added, and the old ones keep their owners. -/
structure Grown (own own' : ℕ → κ) (a a' : PushSumAggregator κ) : Prop where
  length : a.lists.length ≤ a'.lists.length
  same : i < a.lists.length → own' i = own i

section
omit [DecidableEq κ]

theorem Grown.refl (own : ℕ → κ) (a : PushSumAggregator κ) : Grown own own a a :=
  ⟨le_rfl, fun _ => rfl⟩

theorem Grown.trans {a a' a'' : PushSumAggregator κ} (h : Grown own own' a a')
    (h' : Grown own' own'' a' a'') : Grown own own'' a a'' :=
  ⟨h.length.trans h'.length, fun hi => (h'.same (hi.trans_le h.length)).trans (h.same hi)⟩

theorem Named.grown {a a' : PushSumAggregator κ} (h : Named own a todo)
    (hg : Grown own own' a a') : Named own' a' todo := by
  intro p hp
  obtain ⟨hlt, hown⟩ := h p hp
  exact ⟨hlt.trans_le hg.length, (hg.same hlt).trans hown⟩

end

theorem Bounded.setList {a : PushSumAggregator κ} {l : List Mass}
    (h : Bounded lo hi key own a) (hl : k = key → ∀ m ∈ l, m.Between lo hi) :
    ∃ own', Bounded lo hi key own' (a.setList k l) ∧ Grown own own' a (a.setList k l) := by
  have hlen : (a.setList k l).lists.length = a.lists.length + 1 := by
    simp [PushSumAggregator.setList]
  have hold : ∀ {i}, i < a.lists.length → Function.update own a.lists.length k i = own i :=
    fun hi => Function.update_of_ne hi.ne _ _
  refine ⟨Function.update own a.lists.length k, ⟨?_, ?_, h.estimate⟩, ⟨by omega, hold⟩⟩
  · intro k' i hi
    have hi' : (a.inbox.set k a.lists.length).get k' = some i := hi
    rw [Dict.get_set] at hi'
    split at hi'
    · rename_i hk
      cases hi'
      exact ⟨by omega, (Function.update_self _ _ _).trans hk.symm⟩
    · obtain ⟨hlt, hown⟩ := h.inbox hi'
      exact ⟨by omega, (hold hlt).trans hown⟩
  · intro i hi hown m hm
    rcases Nat.lt_succ_iff_lt_or_eq.1 (hlen ▸ hi) with hlt | rfl
    · rw [list_setList hlt] at hm
      exact h.masses hlt ((hold hlt).symm.trans hown) m hm
    · rw [Function.update_self] at hown
      apply hl hown m
      simpa [list, PushSumAggregator.setList] using hm

theorem Bounded.append {a : PushSumAggregator κ} (h : Bounded lo hi key own a)
    (hm : k = key → m.Between lo hi) :
    ∃ own', Bounded lo hi key own' (a.append k m) ∧ Grown own own' a (a.append k m) := by
  cases hk : a.inbox.get k with
  | none =>
    rw [append_of_none hk]
    apply h.setList
    intro he x hx
    rw [List.mem_singleton.1 hx]
    exact hm he
  | some i =>
    obtain ⟨hlt, hown⟩ := h.inbox hk
    have hlen : (a.append k m).lists.length = a.lists.length := by
      rw [append_of_get hk]
      exact List.length_set
    have hin : (a.append k m).inbox = a.inbox := by rw [append_of_get hk]
    have hest : (a.append k m).estimate = a.estimate := by rw [append_of_get hk]
    refine ⟨own, ⟨?_, ?_, ?_⟩, ⟨hlen.ge, fun _ => rfl⟩⟩
    · rw [hin, hlen]
      exact h.inbox
    · intro j hj hjown x hx
      rw [hlen] at hj
      by_cases hji : j = i
      · subst hji
        have hlist : (a.append k m).list j = a.list j ++ [m] := by
          rw [append_of_get hk]
          simp [list, hlt]
        rw [hlist, List.mem_append, List.mem_singleton] at hx
        rcases hx with hx | rfl
        · exact h.masses hj hjown x hx
        · exact hm (hown.symm.trans hjown)
      · rw [list_append_ne hk m hji] at hx
        exact h.masses hj hjown x hx
    · rw [hest]
      exact h.estimate

theorem Bounded.halve {a : PushSumAggregator κ} (h : Bounded lo hi key own a)
    (ht : k = key → t.Between lo hi) :
    ∃ own', Bounded lo hi key own' (a.halve k t) ∧ Grown own own' a (a.halve k t) := by
  have hkept : ∀ e : Dict κ ℚ, (∀ x, e.get key = some x → lo ≤ x ∧ x ≤ hi) →
      ∃ own', Bounded lo hi key own' (({ a with estimate := e }.setList k []).append k t.keep) ∧
        Grown own own' a (({ a with estimate := e }.setList k []).append k t.keep) := by
    intro e he
    have hest : Bounded lo hi key own { a with estimate := e } := ⟨h.inbox, h.masses, he _⟩
    obtain ⟨own₁, h₁, hg₁⟩ := hest.setList (k := k) (l := []) (fun _ m hm => by cases hm)
    obtain ⟨own₂, h₂, hg₂⟩ := h₁.append (fun hk => (ht hk).keep)
    exact ⟨own₂, h₂, (⟨hg₁.length, hg₁.same⟩ : Grown own own₁ a _).trans hg₂⟩
  unfold PushSumAggregator.halve
  by_cases hw : 0 < t.w
  · rw [if_pos hw]
    apply hkept
    intro x hx
    rw [Dict.get_set] at hx
    split at hx
    · rename_i hk
      cases hx
      exact (ht hk.symm).ratio hw
    · exact h.estimate hx
  · rw [if_neg hw]
    exact hkept a.estimate (fun x hx => h.estimate hx)

section
omit [DecidableEq ν]

theorem Bounded.round {a a' : PushSumAggregator κ} {out : Option (ν × κ × Mass)}
    (h : Bounded lo hi key own a) (ht : Named own a todo)
    (hr : a.round peer todo = (a', out, todo')) :
    ∃ own', Bounded lo hi key own' a' ∧ Grown own own' a a' ∧ Named own' a' todo' ∧
      ∀ q ∈ out, q.2.1 = key → q.2.2.Between lo hi := by
  induction todo generalizing a own with
  | nil =>
    simp only [PushSumAggregator.round, Prod.mk.injEq] at hr
    obtain ⟨rfl, rfl, rfl⟩ := hr
    exact ⟨own, h, .refl own a, ht, fun q hq => by cases hq⟩
  | cons p todo ih =>
    obtain ⟨k, i⟩ := p
    have htail : Named own a todo := fun p hp => ht p (List.mem_cons_of_mem _ hp)
    obtain ⟨hlt, hown⟩ := ht _ List.mem_cons_self
    rw [PushSumAggregator.round] at hr
    split at hr
    · exact ih h htail hr
    · have htotal : k = key → (Mass.total (a.list i)).Between lo hi :=
        fun hk => Mass.Between.total (h.masses hlt (hown.trans hk))
      obtain ⟨own₁, h₁, hg₁⟩ := h.halve htotal
      cases peer with
      | none =>
        obtain ⟨own₂, h₂, hg₂⟩ := h₁.append (fun hk => (htotal hk).send)
        have hg := hg₁.trans hg₂
        obtain ⟨own₃, h₃, hg₃, hnamed, hout⟩ := ih h₂ (htail.grown hg) hr
        exact ⟨own₃, h₃, hg.trans hg₃, hnamed, hout⟩
      | some target =>
        simp only [Prod.mk.injEq] at hr
        obtain ⟨rfl, rfl, rfl⟩ := hr
        refine ⟨own₁, h₁, hg₁, htail.grown hg₁, fun q hq hk => ?_⟩
        cases hq
        exact (htotal hk).send

end

end PushSumAggregator

/-- Steps of the swarm on a network that may duplicate: a message that was sent arrives once more,
at any time and whatever became of it before. -/
inductive PushNetAction (ν κ : Type)
  | act (a : PushAction ν κ)
  | duplicate (j : ℕ)

namespace PushSum

def netStep (s : PushSum ν κ) : PushNetAction ν κ → Option (PushSum ν κ)
  | .act a => s.step a
  | .duplicate j => do
    let q ← s.sent[j]?
    some (s.setNode q.dst ((s.node q.dst).onMessage q.key q.mass.s q.mass.w))

/-- The key is only started by `average`, with a value between the bounds. -/
def Averages (lo hi : ℚ) (key : κ) : PushNetAction ν κ → Prop
  | .act (.start _ k value weight) => k = key → weight = 1 ∧ lo ≤ value ∧ value ≤ hi
  | _ => True

/-- All masses of the key lie between the bounds: in the inboxes, in the lists that suspended rounds
have still to read and in the messages. -/
structure Bounds (lo hi : ℚ) (key : κ) (own : ν → ℕ → κ) (s : PushSum ν κ) : Prop where
  node : ∀ n, (s.node n).Bounded lo hi key (own n)
  rounds : ∀ t ∈ s.rounds, (s.node t.node).Named (own t.node) t.todo
  sent : ∀ q ∈ s.sent, q.key = key → q.mass.Between lo hi

section
omit [DecidableEq ν]

theorem Bounds.init (lo hi : ℚ) (key : κ) :
    Bounds lo hi key (fun _ _ => key) (init : PushSum ν κ) := by
  refine ⟨fun n => ⟨?_, ?_, ?_⟩, ?_, ?_⟩
  · intro k i hi
    cases hi
  · intro i hi
    exact absurd hi (Nat.not_lt_zero i)
  · intro x hx
    cases hx
  · intro t ht
    cases ht
  · intro q hq
    cases hq

end

section
omit [DecidableEq κ]

theorem node_setNode_self (s : PushSum ν κ) (n : ν) (a : PushSumAggregator κ) :
    (s.setNode n a).node n = a :=
  Function.update_self ..

theorem node_setNode_ne (s : PushSum ν κ) {n m : ν} (a : PushSumAggregator κ) (h : m ≠ n) :
    (s.setNode n a).node m = s.node m :=
  Function.update_of_ne h ..

end

theorem Bounds.setNode {s : PushSum ν κ} {a : PushSumAggregator κ} (h : Bounds lo hi key own s)
    (ha : a.Bounded lo hi key own') (hg : (s.node n).Grown (own n) own' a) :
    Bounds lo hi key (Function.update own n own') (s.setNode n a) := by
  constructor
  · intro m
    by_cases hm : m = n
    · subst hm
      rw [node_setNode_self, Function.update_self]
      exact ha
    · rw [node_setNode_ne s a hm, Function.update_of_ne hm]
      exact h.node m
  · intro t ht
    have hnamed := h.rounds t ht
    by_cases hm : t.node = n
    · rw [hm] at hnamed ⊢
      rw [node_setNode_self, Function.update_self]
      exact hnamed.grown hg
    · rw [node_setNode_ne s a hm, Function.update_of_ne hm]
      exact hnamed
  · exact h.sent

theorem Bounds.append {s : PushSum ν κ} (h : Bounds lo hi key own s)
    (hm : k = key → m.Between lo hi) (n : ν) :
    ∃ own', Bounds lo hi key own' (s.setNode n ((s.node n).append k m)) := by
  obtain ⟨own', ha, hg⟩ := (h.node n).append hm
  exact ⟨_, h.setNode ha hg⟩

theorem Bounds.advance {s s' : PushSum ν κ} (h : Bounds lo hi key own s)
    (ht : (s.node n).Named (own n) todo) (ha : s.advance n peer todo = (s', t)) :
    ∃ own', Bounds lo hi key own' s' ∧ (s'.node t.node).Named (own' t.node) t.todo ∧
      s'.rounds = s.rounds := by
  rcases hr : (s.node n).round peer todo with ⟨a, out, todo'⟩
  obtain ⟨own', hb, hg, hnamed, hout⟩ := (h.node n).round ht hr
  have hset := h.setNode hb hg
  have hnamed' : ((s.setNode n a).node n).Named (Function.update own n own' n) todo' := by
    rw [node_setNode_self, Function.update_self]
    exact hnamed
  cases out with
  | none =>
    simp only [PushSum.advance, hr, Prod.mk.injEq] at ha
    obtain ⟨rfl, rfl⟩ := ha
    exact ⟨_, hset, hnamed', rfl⟩
  | some out =>
    obtain ⟨dst, k, m⟩ := out
    simp only [PushSum.advance, hr, Prod.mk.injEq] at ha
    obtain ⟨rfl, rfl⟩ := ha
    refine ⟨_, ⟨hset.node, hset.rounds, fun q hq hk => ?_⟩, hnamed', rfl⟩
    rcases List.mem_append.1 hq with hq | hq
    · exact h.sent q hq hk
    · rw [List.mem_singleton] at hq
      subst hq
      exact hout _ rfl hk

section
omit [DecidableEq ν]

theorem Bounds.withRounds {s : PushSum ν κ} {rounds : List (PushRound ν κ)}
    (h : Bounds lo hi key own s)
    (hr : ∀ t ∈ rounds, (s.node t.node).Named (own t.node) t.todo) :
    Bounds lo hi key own { s with rounds := rounds } :=
  ⟨h.node, hr, h.sent⟩

theorem Bounds.append_round {s s' : PushSum ν κ} (h : Bounds lo hi key own s')
    (hr : s'.rounds = s.rounds) (ht : (s'.node t.node).Named (own t.node) t.todo) :
    Bounds lo hi key own { s' with rounds := s.rounds ++ [t] } := by
  apply h.withRounds
  intro u hu
  rcases List.mem_append.1 hu with hu | hu
  · exact h.rounds u (hr ▸ hu)
  · rw [List.mem_singleton.1 hu]
    exact ht

theorem Bounds.set_round {s s' : PushSum ν κ} (h : Bounds lo hi key own s')
    (hr : s'.rounds = s.rounds) (ht : (s'.node t.node).Named (own t.node) t.todo) :
    Bounds lo hi key own { s' with rounds := s.rounds.set r t } := by
  apply h.withRounds
  intro u hu
  rcases List.mem_or_eq_of_mem_set hu with hu | rfl
  · exact h.rounds u (hr ▸ hu)
  · exact ht

theorem Bounds.withSent {s : PushSum ν κ} {sent : List (MassPacket ν κ)}
    (h : Bounds lo hi key own s) (hs : ∀ q ∈ sent, q.key = key → q.mass.Between lo hi) :
    Bounds lo hi key own { s with sent := sent } :=
  ⟨h.node, h.rounds, hs⟩

theorem Bounds.set_sent {s : PushSum ν κ} (h : Bounds lo hi key own s)
    (hj : s.sent[j]? = some ⟨dst, k, m, state⟩) (state' : PacketState) :
    ∀ q ∈ s.sent.set j ⟨dst, k, m, state'⟩, q.key = key → q.mass.Between lo hi := by
  intro q hq
  rcases List.mem_or_eq_of_mem_set hq with hq | rfl
  · exact h.sent q hq
  · exact h.sent ⟨dst, k, m, state⟩ (List.mem_of_getElem? hj)

end

theorem Bounds.step {s s' : PushSum ν κ} (h : ∃ own, Bounds lo hi key own s)
    (ha : Averages lo hi key (.act a)) (hs : s.step a = some s') :
    ∃ own, Bounds lo hi key own s' := by
  obtain ⟨own, h⟩ := h
  obtain ⟨n, k, value, weight, rfl, rfl⟩ | ⟨n, peer, s₁, t, rfl, ha, rfl⟩ |
    ⟨j, dst, k, mass, rfl, hj, rfl⟩ | ⟨r, n, j, todo, peer, s₁, t, rfl, hr, ha, rfl⟩ |
    ⟨r, n, j, todo, peer, s₁, t, dst, k, mass, rfl, hr, hj, ha, rfl⟩ := step_cases hs
  · have hm : k = key → Mass.Between lo hi ⟨value, weight⟩ := by
      intro hk
      obtain ⟨rfl, hlo, hhi⟩ := ha hk
      exact ⟨zero_le_one, (mul_one lo).trans_le hlo, hhi.trans_eq (mul_one hi).symm⟩
    obtain ⟨own', h'⟩ := h.append hm n
    exact ⟨own', ⟨h'.node, h'.rounds, h'.sent⟩⟩
  · have hnamed : (s.node n).Named (own n) (s.node n).inbox.items :=
      fun p hp => (h.node n).inbox (Dict.mem_items.1 hp)
    obtain ⟨own', h', ht, hrounds⟩ := h.advance hnamed ha
    exact ⟨own', h'.append_round hrounds ht⟩
  · obtain ⟨own', h'⟩ := h.append (h.sent _ (List.mem_of_getElem? hj)) dst
    exact ⟨own', h'.withSent (h.set_sent hj .delivered)⟩
  · obtain ⟨own', h', ht, hrounds⟩ := h.advance (h.rounds _ (List.mem_of_getElem? hr)) ha
    exact ⟨own', h'.set_round hrounds ht⟩
  · have hlost := h.withSent (h.set_sent hj .lost)
    obtain ⟨own', h', ht, hrounds⟩ := hlost.advance (h.rounds _ (List.mem_of_getElem? hr)) ha
    exact ⟨own', h'.set_round hrounds ht⟩

theorem Bounds.netStep {s s' : PushSum ν κ} (h : ∃ own, Bounds lo hi key own s)
    (ha : Averages lo hi key a) (hs : s.netStep a = some s') : ∃ own, Bounds lo hi key own s' := by
  cases a with
  | act a => exact Bounds.step h ha hs
  | duplicate j =>
    obtain ⟨own, h⟩ := h
    obtain ⟨q, hq, hs⟩ := Option.bind_eq_some_iff.1 hs
    cases hs
    exact h.append (h.sent q (List.mem_of_getElem? hq)) q.dst

instance (lo hi : ℚ) (key : κ) : (a : PushNetAction ν κ) → Decidable (Averages lo hi key a)
  | .act (.start _ k value weight) =>
    inferInstanceAs (Decidable (k = key → weight = 1 ∧ lo ≤ value ∧ value ≤ hi))
  | .act (.round ..) => isTrue trivial
  | .act (.deliver _) => isTrue trivial
  | .act (.resume ..) => isTrue trivial
  | .duplicate _ => isTrue trivial

end PushSum

open PushSum

/-- Whatever the network loses, delays or duplicates, a key that is only started by `average` with
values between two bounds is estimated between them everywhere, and no division of a round
raises. -/
theorem estimates_stay_in_range {ν κ : Type} [DecidableEq ν] [DecidableEq κ] {lo hi : ℚ} {key : κ}
    {past : List (PushSum ν κ × PushNetAction ν κ)} {s : PushSum ν κ}
    (h : Run netStep init past s) (ha : ∀ p ∈ past, Averages lo hi key p.2) (n : ν) :
    (∀ x, (s.node n).estimate.get key = some x → lo ≤ x ∧ x ≤ hi) ∧
      ∀ (peer : Option ν) todo,
        (s.node n).roundRaising peer todo = some ((s.node n).round peer todo) := by
  have hinit : ∃ own, Bounds lo hi key own (init : PushSum ν κ) := ⟨_, .init lo hi key⟩
  obtain ⟨own, hb⟩ := h.invariant (I := fun s => ∃ own, Bounds lo hi key own s)
    (C := fun _ a => Averages lo hi key a) ha hinit (fun _ _ _ => Bounds.netStep)
  exact ⟨fun x hx => (hb.node n).estimate hx,
    fun peer todo => PushSumAggregator.roundRaising_eq _ peer todo⟩

/-- Two aggregators average 4 and 8; the first message arrives twice. -/
theorem estimates_stay_in_range_of_two : ∃ past s, Run netStep (init : PushSum Bool ℕ) past s ∧
    (s.node true).estimate.get 7 = some 6 ∧
    ∀ x, (s.node true).estimate.get 7 = some x → 4 ≤ x ∧ x ≤ 8 := by
  obtain ⟨past, s, hr, ha, hs⟩ := exists_run_of_execWhere netStep (fun _ a => Averages 4 8 7 a)
    (init : PushSum Bool ℕ)
    [.act (.start false 7 4 1), .act (.start true 7 8 1), .act (.round false (some true)),
      .act (.deliver 0), .duplicate 0, .act (.round true (some false))]
    (fun s => (s.node true).estimate.get 7) (some 6) (by decide +kernel)
  exact ⟨past, s, hr, hs, (estimates_stay_in_range hr ha true).1⟩

end Suprime
