import Mathlib.Algebra.BigOperators.Group.Finset.Piecewise
import Mathlib.Algebra.Ring.Prod
import Mathlib.Tactic.LinearCombination
import Suprime.PushSum

namespace Suprime
set_option autoImplicit true

variable {ν κ : Type} [DecidableEq ν] [DecidableEq κ]

namespace Mass

theorem pair_add (m m' : Mass) : (m.add m').pair = m.pair + m'.pair := rfl

theorem pair_foldl (m : Mass) (l : List Mass) :
    (l.foldl add m).pair = m.pair + (l.map pair).sum := by
  induction l generalizing m with
  | nil => simp
  | cons x l ih => rw [List.foldl_cons, ih, pair_add, List.map_cons, List.sum_cons, add_assoc]

theorem pair_total (l : List Mass) : (total l).pair = (l.map pair).sum := by
  rw [total, pair_foldl]
  exact zero_add _

theorem keep_add_send (m : Mass) : m.keep.pair + m.send.pair = m.pair := by
  simp [pair, keep, send]

end Mass

namespace PushSumAggregator

def mass (a : PushSumAggregator κ) (k : κ) : ℚ × ℚ :=
  match a.inbox.get k with
  | some i => ((a.list i).map Mass.pair).sum
  | none => 0

/-- Every key of the inbox has a list object of its own. -/
structure Ok (a : PushSumAggregator κ) : Prop where
  bound : a.inbox.get k = some i → i < a.lists.length
  own : a.inbox.get k = some i → a.inbox.get k' = some i → k = k'

theorem mass_of_get {a : PushSumAggregator κ} (h : a.inbox.get k = some i) :
    a.mass k = ((a.list i).map Mass.pair).sum := by
  simp only [mass, h]

theorem mass_of_none {a : PushSumAggregator κ} (h : a.inbox.get k = none) : a.mass k = 0 := by
  simp only [mass, h]

theorem mass_congr {a a' : PushSumAggregator κ} (h : a'.inbox.get k = a.inbox.get k)
    (hl : ∀ i, a.inbox.get k = some i → a'.list i = a.list i) : a'.mass k = a.mass k := by
  cases hk : a.inbox.get k with
  | none => rw [mass_of_none hk, mass_of_none (h.trans hk)]
  | some i => rw [mass_of_get hk, mass_of_get (h.trans hk), hl i hk]

/-- What changes in an aggregator when the list of one key is replaced by a new object. -/
structure Renewed (a a' : PushSumAggregator κ) (key : κ) (m : ℚ × ℚ) : Prop where
  ok : a'.Ok
  mass : a'.mass key = m
  list : i < a.lists.length → a'.list i = a.list i
  inbox : k ≠ key → a'.inbox.get k = a.inbox.get k
  length : a.lists.length ≤ a'.lists.length
  new : ∃ i, a'.inbox.get key = some i ∧ a.lists.length ≤ i

theorem Renewed.mass_ne {a a' : PushSumAggregator κ} (hr : Renewed a a' key m) (h : a.Ok)
    (hk : k ≠ key) : a'.mass k = a.mass k :=
  mass_congr (hr.inbox hk) (fun _ hi => hr.list (h.bound hi))

theorem list_setList {a : PushSumAggregator κ} (h : i < a.lists.length) :
    (a.setList key l).list i = a.list i := by
  simp [list, setList, List.getElem?_append_left h]

theorem renewed_setList {a : PushSumAggregator κ} (h : a.Ok) (key : κ) (l : List Mass) :
    Renewed a (a.setList key l) key (l.map Mass.pair).sum := by
  have hget : ∀ k, (a.setList key l).inbox.get k =
      if k = key then some a.lists.length else a.inbox.get k :=
    fun k => a.inbox.get_set key k _
  have hlen : (a.setList key l).lists.length = a.lists.length + 1 := by simp [setList]
  have hkey : (a.setList key l).inbox.get key = some a.lists.length := by rw [hget, if_pos rfl]
  refine ⟨⟨?_, ?_⟩, ?_, list_setList, ?_, by omega, a.lists.length, hkey, le_rfl⟩
  · intro k i hi
    rw [hget] at hi
    split at hi
    · cases hi
      omega
    · have hlt := h.bound hi
      omega
  · intro k i k' hk hk'
    rw [hget] at hk hk'
    split at hk <;> split at hk'
    · simp_all
    · cases hk
      exact absurd (h.bound hk') (lt_irrefl _)
    · cases hk'
      exact absurd (h.bound hk) (lt_irrefl _)
    · exact h.own hk hk'
  · rw [mass_of_get hkey]
    simp [list, setList]
  · intro k hk
    rw [hget, if_neg hk]

theorem append_of_get {a : PushSumAggregator κ} (h : a.inbox.get key = some i) (m : Mass) :
    a.append key m = { a with lists := a.lists.set i (a.list i ++ [m]) } := by
  simp only [append, h]

theorem append_of_none {a : PushSumAggregator κ} (h : a.inbox.get key = none) (m : Mass) :
    a.append key m = a.setList key [m] := by
  simp only [append, h]

theorem list_append_ne {a : PushSumAggregator κ} (h : a.inbox.get key = some i) (m : Mass)
    (hj : j ≠ i) : (a.append key m).list j = a.list j := by
  rw [append_of_get h]
  simp [list, List.getElem?_set_ne (Ne.symm hj)]

theorem list_append_self {a : PushSumAggregator κ} (ha : a.Ok) (h : a.inbox.get key = some i)
    (m : Mass) : (a.append key m).list i = a.list i ++ [m] := by
  rw [append_of_get h]
  simp [list, ha.bound h]

theorem Ok.append_some {a : PushSumAggregator κ} (ha : a.Ok) (h : a.inbox.get key = some i)
    (m : Mass) : (a.append key m).Ok := by
  rw [append_of_get h]
  exact ⟨fun hi => by simpa using ha.bound hi, ha.own⟩

theorem mass_append_self {a : PushSumAggregator κ} (ha : a.Ok) (h : a.inbox.get key = some i)
    (m : Mass) : (a.append key m).mass key = a.mass key + m.pair := by
  have hget : (a.append key m).inbox.get key = some i := by
    rw [append_of_get h]
    exact h
  rw [mass_of_get hget, mass_of_get h, list_append_self ha h]
  simp

theorem Renewed.append {a a' : PushSumAggregator κ} (h : Renewed a a' key m) (x : Mass) :
    Renewed a (a'.append key x) key (m + x.pair) := by
  obtain ⟨i, hi, hle⟩ := h.new
  have hin : (a'.append key x).inbox = a'.inbox := by rw [append_of_get hi]
  have hlen : (a'.append key x).lists.length = a'.lists.length := by
    rw [append_of_get hi]
    exact List.length_set
  refine ⟨h.ok.append_some hi x, ?_, ?_, ?_, ?_, i, ?_, hle⟩
  · rw [mass_append_self h.ok hi, h.mass]
  · intro j hj
    rw [list_append_ne hi x (by omega)]
    exact h.list hj
  · rw [hin]
    exact h.inbox
  · rw [hlen]
    exact h.length
  · rw [hin]
    exact hi

theorem Ok.append {a : PushSumAggregator κ} (h : a.Ok) (key : κ) (m : Mass) :
    (a.append key m).Ok := by
  cases hk : a.inbox.get key with
  | some i => exact h.append_some hk m
  | none =>
    rw [append_of_none hk]
    exact (renewed_setList h key [m]).ok

theorem length_le_append (a : PushSumAggregator κ) (key : κ) (m : Mass) :
    a.lists.length ≤ (a.append key m).lists.length := by
  cases hk : a.inbox.get key with
  | some i =>
    rw [append_of_get hk]
    exact List.length_set.ge
  | none =>
    rw [append_of_none hk]
    simp [setList]

theorem mass_append {a : PushSumAggregator κ} (h : a.Ok) (key : κ) (m : Mass) (k : κ) :
    (a.append key m).mass k = a.mass k + if key = k then m.pair else 0 := by
  by_cases hk : key = k
  · subst hk
    rw [if_pos rfl]
    cases hg : a.inbox.get key with
    | some i => exact mass_append_self h hg m
    | none =>
      rw [append_of_none hg, (renewed_setList h key [m]).mass, mass_of_none hg]
      simp
  · rw [if_neg hk, add_zero]
    cases hg : a.inbox.get key with
    | some i =>
      apply mass_congr
      · rw [append_of_get hg]
      · intro j hj
        apply list_append_ne hg
        rintro rfl
        exact hk (h.own hg hj)
    | none =>
      rw [append_of_none hg]
      exact (renewed_setList h key [m]).mass_ne h (Ne.symm hk)

theorem renewed_halve {a : PushSumAggregator κ} (h : a.Ok) (key : κ) (t : Mass) :
    Renewed a (a.halve key t) key t.keep.pair := by
  have hset : ∀ e, Renewed a ({ a with estimate := e }.setList key []) key 0 := by
    intro e
    have hr := renewed_setList (a := { a with estimate := e }) ⟨h.bound, h.own⟩ key []
    exact ⟨hr.ok, hr.mass, hr.list, hr.inbox, hr.length, hr.new⟩
  rw [halve]
  split
  · simpa using (hset _).append t.keep
  · simpa using (hset a.estimate).append t.keep

/-- The keys that a round has still to visit: each once, with a list object that exists. -/
structure Todo (a : PushSumAggregator κ) (todo : List (κ × ℕ)) : Prop where
  nodup : (todo.map Prod.fst).Nodup
  bound : ∀ p ∈ todo, p.2 < a.lists.length

/-- The lists that a round has still to read are the ones of the inbox, unless they are empty. -/
def Current (a : PushSumAggregator κ) (todo : List (κ × ℕ)) : Prop :=
  ∀ p ∈ todo, a.list p.2 = [] ∨ a.inbox.get p.1 = some p.2

instance (a : PushSumAggregator κ) (todo : List (κ × ℕ)) : Decidable (a.Current todo) :=
  inferInstanceAs (Decidable (∀ p ∈ todo, a.list p.2 = [] ∨ a.inbox.get p.1 = some p.2))

section
omit [DecidableEq κ]

theorem Todo.mono {a a' : PushSumAggregator κ} (h : a.Todo todo)
    (hl : a.lists.length ≤ a'.lists.length) : a'.Todo todo :=
  ⟨h.nodup, fun p hp => (h.bound p hp).trans_le hl⟩

end

theorem Ok.todo {a : PushSumAggregator κ} (h : a.Ok) : a.Todo a.inbox.items :=
  ⟨a.inbox.nodup, fun _ hp => h.bound (Dict.mem_items.1 hp)⟩

theorem current_items (a : PushSumAggregator κ) : a.Current a.inbox.items :=
  fun _ hp => .inr (Dict.mem_items.1 hp)

/-- The mass for a key in the message that a round sends. -/
def carried (k : κ) : Option (ν × κ × Mass) → ℚ × ℚ
  | some (_, key, m) => if key = k then m.pair else 0
  | none => 0

theorem Current.renewed {a a' : PushSumAggregator κ} (hc : a.Current ((key, i) :: todo))
    (ht : a.Todo ((key, i) :: todo)) (hr : Renewed a a' key m) : a'.Current todo := by
  intro p hp
  have hne : p.1 ≠ key := by
    intro he
    have hm : p.1 ∈ todo.map Prod.fst := List.mem_map_of_mem hp
    rw [he] at hm
    exact (List.nodup_cons.1 ht.nodup).1 hm
  rw [hr.list (ht.bound p (List.mem_cons_of_mem _ hp)), hr.inbox hne]
  exact hc p (List.mem_cons_of_mem _ hp)

section
omit [DecidableEq ν]

theorem round_spec {a a' : PushSumAggregator κ} {out : Option (ν × κ × Mass)} (h : a.Ok)
    (ht : a.Todo todo) (hc : a.Current todo) (hr : a.round peer todo = (a', out, todo')) :
    a'.Ok ∧ a'.Todo todo' ∧ a.lists.length ≤ a'.lists.length ∧
      ∀ k, a'.mass k + carried k out = a.mass k := by
  induction todo generalizing a with
  | nil =>
    simp only [round, Prod.mk.injEq] at hr
    obtain ⟨rfl, rfl, rfl⟩ := hr
    exact ⟨h, ht, le_rfl, fun k => add_zero _⟩
  | cons p todo ih =>
    obtain ⟨key, i⟩ := p
    have htail : a.Todo todo := by
      exact ⟨(List.nodup_cons.1 ht.nodup).2, fun p hp => ht.bound p (List.mem_cons_of_mem _ hp)⟩
    rw [round] at hr
    split at hr
    · exact ih h htail (fun p hp => hc p (List.mem_cons_of_mem _ hp)) hr
    · rename_i hne
      have hkey := (hc _ List.mem_cons_self).resolve_left hne
      have hmass : a.mass key = (Mass.total (a.list i)).pair := by
        rw [Mass.pair_total]
        exact mass_of_get hkey
      have hhalve := renewed_halve h key (Mass.total (a.list i))
      cases peer with
      | none =>
        have hall := hhalve.append (Mass.total (a.list i)).send
        obtain ⟨hok, htodo, hlen, hm⟩ :=
          ih hall.ok (htail.mono hall.length) (hc.renewed ht hall) hr
        refine ⟨hok, htodo, hall.length.trans hlen, fun k => ?_⟩
        rw [hm]
        by_cases hk : k = key
        · rw [hk, hall.mass, hmass]
          exact Mass.keep_add_send _
        · exact hall.mass_ne h hk
      | some target =>
        simp only [Prod.mk.injEq] at hr
        obtain ⟨rfl, rfl, rfl⟩ := hr
        refine ⟨hhalve.ok, htail.mono hhalve.length, hhalve.length, fun k => ?_⟩
        by_cases hk : key = k
        · subst hk
          rw [carried, if_pos rfl, hhalve.mass, hmass]
          exact Mass.keep_add_send _
        · rw [carried, if_neg hk, add_zero]
          exact hhalve.mass_ne h (Ne.symm hk)

end

end PushSumAggregator

/-- The mass for a key that a message in flight carries. -/
def MassPacket.carried (k : κ) (q : MassPacket ν κ) : ℚ × ℚ :=
  if q.state = .inFlight ∧ q.key = k then q.mass.pair else 0

namespace PushSum

def inboxes [Fintype ν] (s : PushSum ν κ) (k : κ) : ℚ × ℚ := ∑ n, (s.node n).mass k

def inFlight (s : PushSum ν κ) (k : κ) : ℚ × ℚ := (s.sent.map (MassPacket.carried k)).sum

def startedMass (s : PushSum ν κ) (k : κ) : ℚ × ℚ :=
  (s.started.map (fun p => if p.1 = k then p.2.pair else 0)).sum

/-- For every key, all mass that was started is in an inbox or in flight. -/
def Conserved [Fintype ν] (s : PushSum ν κ) : Prop :=
  ∀ k, s.inboxes k + s.inFlight k = s.startedMass k

/-- A round reads lists that are still in the inbox, and a send that fails carries no mass. -/
def Keeps (s : PushSum ν κ) : PushAction ν κ → Prop
  | .resume r ok _ =>
    match s.rounds[r]? with
    | some ⟨n, some j, todo⟩ =>
      (s.node n).Current todo ∧ (ok = false → ∀ q ∈ s.sent[j]?, q.mass = ⟨0, 0⟩)
    | _ => True
  | _ => True

structure Ok (s : PushSum ν κ) : Prop where
  node : ∀ n, (s.node n).Ok
  rounds : ∀ t ∈ s.rounds, (s.node t.node).Todo t.todo

theorem sum_update [Fintype ν] {α G : Type} [AddCommGroup G] (f : ν → α) (g : α → G) (n : ν)
    (a : α) : ∑ m, g (Function.update f n a m) + g (f n) = ∑ m, g (f m) + g a := by
  have hrest : ∑ m ∈ Finset.univ.erase n, g (Function.update f n a m) =
      ∑ m ∈ Finset.univ.erase n, g (f m) := by
    apply Finset.sum_congr rfl
    intro m hm
    rw [Function.update_of_ne (Finset.ne_of_mem_erase hm)]
  rw [← Finset.add_sum_erase _ _ (Finset.mem_univ n), hrest, Function.update_self,
    ← Finset.add_sum_erase Finset.univ (fun m => g (f m)) (Finset.mem_univ n)]
  abel

theorem sum_map_set {α G : Type} [AddCommGroup G] (f : α → G) {l : List α} {j : ℕ} {x : α}
    (h : l[j]? = some x) (y : α) :
    ((l.set j y).map f).sum + f x = (l.map f).sum + f y := by
  induction l generalizing j with
  | nil => cases h
  | cons z l ih =>
    cases j with
    | zero =>
      cases h
      simp only [List.set_cons_zero, List.map_cons, List.sum_cons]
      abel
    | succ j =>
      simp only [List.set_cons_succ, List.map_cons, List.sum_cons]
      rw [add_assoc, ih h, add_assoc]

theorem inboxes_setNode [Fintype ν] (s : PushSum ν κ) (n : ν) (a : PushSumAggregator κ) (k : κ) :
    (s.setNode n a).inboxes k + (s.node n).mass k = s.inboxes k + a.mass k :=
  sum_update s.node (fun a => a.mass k) n a

theorem Ok.setNode {s : PushSum ν κ} (h : s.Ok) (ha : a.Ok)
    (hl : (s.node n).lists.length ≤ a.lists.length) : (s.setNode n a).Ok := by
  have hcases : ∀ m, m = n ∧ (s.setNode n a).node m = a ∨ (s.setNode n a).node m = s.node m := by
    intro m
    by_cases hm : m = n
    · exact .inl ⟨hm, by rw [hm]; exact Function.update_self ..⟩
    · exact .inr (Function.update_of_ne hm ..)
  constructor
  · intro m
    rcases hcases m with ⟨_, he⟩ | he
    · rw [he]
      exact ha
    · rw [he]
      exact h.node m
  · intro t ht
    have hold := h.rounds t ht
    rcases hcases t.node with ⟨hn, he⟩ | he
    · rw [he]
      rw [hn] at hold
      exact hold.mono hl
    · rw [he]
      exact hold

section
omit [DecidableEq ν]

theorem inFlight_concat {s s' : PushSum ν κ} (h : s'.sent = s.sent ++ [q]) (k : κ) :
    s'.inFlight k = s.inFlight k + q.carried k := by
  rw [inFlight, inFlight, h, List.map_append, List.sum_append]
  simp

theorem carried_inFlight (dst : ν) (key : κ) (m : Mass) (k : κ) :
    MassPacket.carried k ⟨dst, key, m, .inFlight⟩ = if key = k then m.pair else 0 := by
  simp [MassPacket.carried]

theorem inFlight_taken {s s' : PushSum ν κ} (hj : s.sent[j]? = some ⟨dst, key, m, .inFlight⟩)
    (hst : state ≠ .inFlight) (h : s'.sent = s.sent.set j ⟨dst, key, m, state⟩) (k : κ) :
    s'.inFlight k + (if key = k then m.pair else 0) = s.inFlight k := by
  have hset := sum_map_set (MassPacket.carried k) hj ⟨dst, key, m, state⟩
  rw [carried_inFlight] at hset
  have hnew : MassPacket.carried k ⟨dst, key, m, state⟩ = 0 := by
    rw [MassPacket.carried, if_neg (fun hc => hst hc.1)]
  rw [hnew, add_zero] at hset
  rw [inFlight, h]
  exact hset

end

theorem advance_spec [Fintype ν] {s s' : PushSum ν κ} (h : s.Ok) (ht : (s.node n).Todo todo)
    (hc : (s.node n).Current todo) (ha : s.advance n peer todo = (s', t)) :
    s'.Ok ∧ s'.rounds = s.rounds ∧ (s'.node t.node).Todo t.todo ∧ s'.started = s.started ∧
      ∀ k, s'.inboxes k + s'.inFlight k = s.inboxes k + s.inFlight k := by
  rcases hr : (s.node n).round peer todo with ⟨a, out, todo'⟩
  obtain ⟨hok, htodo, hlen, hmass⟩ := PushSumAggregator.round_spec (h.node n) ht hc hr
  have hset := h.setNode hok hlen
  have hnode : (s.setNode n a).node n = a := Function.update_self ..
  have hin := fun k => s.inboxes_setNode n a k
  cases out with
  | none =>
    simp only [advance, hr, Prod.mk.injEq] at ha
    obtain ⟨rfl, rfl⟩ := ha
    refine ⟨hset, rfl, by rw [hnode]; exact htodo, rfl, fun k => ?_⟩
    have hk := hin k
    rw [← hmass k, PushSumAggregator.carried, add_zero] at hk
    rw [add_right_cancel hk]
    rfl
  | some out =>
    obtain ⟨dst, key, m⟩ := out
    simp only [advance, hr, Prod.mk.injEq] at ha
    obtain ⟨rfl, rfl⟩ := ha
    refine ⟨⟨hset.node, hset.rounds⟩, rfl, by rw [hnode]; exact htodo, rfl, fun k => ?_⟩
    have hk := hin k
    rw [← hmass k, PushSumAggregator.carried, ← add_assoc, add_right_comm] at hk
    have hin' := add_right_cancel hk
    rw [inFlight_concat rfl, carried_inFlight, ← add_assoc, add_right_comm]
    exact congrArg (· + s.inFlight k) hin'

section
omit [DecidableEq ν]

theorem Ok.init : (init : PushSum ν κ).Ok := by
  constructor
  · intro n
    constructor
    · intro k i hi
      cases hi
    · intro k i k' hi
      cases hi
  · intro t ht
    cases ht

theorem Conserved.init [Fintype ν] : (init : PushSum ν κ).Conserved := by
  intro k
  have hin : (PushSum.init : PushSum ν κ).inboxes k = 0 := Finset.sum_eq_zero (fun _ _ => rfl)
  rw [hin, zero_add]
  rfl

theorem Ok.append_round {s s' : PushSum ν κ} (h : s'.Ok) (hr : s'.rounds = s.rounds)
    (ht : (s'.node t.node).Todo t.todo) : { s' with rounds := s.rounds ++ [t] }.Ok := by
  refine ⟨h.node, fun u hu => ?_⟩
  rcases List.mem_append.1 hu with hu | hu
  · exact h.rounds u (hr ▸ hu)
  · rw [List.mem_singleton.1 hu]
    exact ht

theorem Ok.set_round {s s' : PushSum ν κ} (h : s'.Ok) (hr : s'.rounds = s.rounds)
    (ht : (s'.node t.node).Todo t.todo) : { s' with rounds := s.rounds.set r t }.Ok := by
  refine ⟨h.node, fun u hu => ?_⟩
  rcases List.mem_or_eq_of_mem_set hu with hu | rfl
  · exact h.rounds u (hr ▸ hu)
  · exact ht

end

theorem step_cases {s s' : PushSum ν κ} (h : s.step a = some s') :
    (∃ n key value weight, a = .start n key value weight ∧
      s' = { s.setNode n ((s.node n).start key value weight) with
        started := s.started ++ [(key, ⟨value, weight⟩)] }) ∨
    (∃ n peer s₁ t, a = .round n peer ∧ s.advance n peer (s.node n).inbox.items = (s₁, t) ∧
      s' = { s₁ with rounds := s.rounds ++ [t] }) ∨
    (∃ j dst key mass, a = .deliver j ∧ s.sent[j]? = some ⟨dst, key, mass, .inFlight⟩ ∧
      s' = { s.setNode dst ((s.node dst).onMessage key mass.s mass.w) with
        sent := s.sent.set j ⟨dst, key, mass, .delivered⟩ }) ∨
    (∃ r n j todo peer s₁ t, a = .resume r true peer ∧ s.rounds[r]? = some ⟨n, some j, todo⟩ ∧
      s.advance n peer todo = (s₁, t) ∧ s' = { s₁ with rounds := s.rounds.set r t }) ∨
    ∃ r n j todo peer s₁ t dst key mass, a = .resume r false peer ∧
      s.rounds[r]? = some ⟨n, some j, todo⟩ ∧
      s.sent[j]? = some ⟨dst, key, mass, .inFlight⟩ ∧
      { s with sent := s.sent.set j ⟨dst, key, mass, .lost⟩ }.advance n peer todo = (s₁, t) ∧
      s' = { s₁ with rounds := s.rounds.set r t } := by
  cases a with
  | start n key value weight =>
    cases h
    exact .inl ⟨n, key, value, weight, rfl, rfl⟩
  | round n peer =>
    cases h
    exact .inr (.inl ⟨n, peer, _, _, rfl, rfl, rfl⟩)
  | deliver j =>
    simp only [step] at h
    split at h
    · rename_i dst key mass hj
      cases h
      exact .inr (.inr (.inl ⟨j, dst, key, mass, rfl, hj, rfl⟩))
    · cases h
  | resume r ok peer =>
    simp only [step] at h
    split at h
    · rename_i n j todo hr
      split at h
      · cases h
        exact .inr (.inr (.inr (.inl ⟨r, n, j, todo, peer, _, _, rfl, hr, rfl, rfl⟩)))
      · rename_i dst key mass hj
        cases h
        exact .inr (.inr (.inr (.inr
          ⟨r, n, j, todo, peer, _, _, dst, key, mass, rfl, hr, hj, rfl, rfl⟩)))
      · cases h
    · cases h

section
omit [DecidableEq ν]

theorem startedMass_concat {s s' : PushSum ν κ} (h : s'.started = s.started ++ [(key, m)])
    (k : κ) : s'.startedMass k = s.startedMass k + if key = k then m.pair else 0 := by
  rw [startedMass, startedMass, h, List.map_append, List.sum_append]
  simp

end

theorem inboxes_append [Fintype ν] {s : PushSum ν κ} (h : s.Ok) (n : ν) (key : κ) (m : Mass)
    (k : κ) : (s.setNode n ((s.node n).append key m)).inboxes k =
      s.inboxes k + if key = k then m.pair else 0 := by
  have hin := s.inboxes_setNode n ((s.node n).append key m) k
  rw [PushSumAggregator.mass_append (h.node n)] at hin
  linear_combination hin

theorem Ok.append {s : PushSum ν κ} (h : s.Ok) (n : ν) (key : κ) (m : Mass) :
    (s.setNode n ((s.node n).append key m)).Ok :=
  h.setNode ((h.node n).append key m) (PushSumAggregator.length_le_append _ key m)

theorem Conserved.start [Fintype ν] {s : PushSum ν κ} (h : s.Ok) (hc : s.Conserved) (n : ν)
    (key : κ) (value weight : ℚ) : { s.setNode n ((s.node n).start key value weight) with
      started := s.started ++ [(key, Mass.mk value weight)] }.Conserved := by
  intro k
  have hin := inboxes_append h n key ⟨value, weight⟩ k
  rw [startedMass_concat rfl]
  change (s.setNode n ((s.node n).append key ⟨value, weight⟩)).inboxes k + s.inFlight k = _
  linear_combination hin + hc k

theorem Conserved.deliver [Fintype ν] {s : PushSum ν κ} {dst : ν} {key : κ} {m : Mass}
    (h : s.Ok) (hc : s.Conserved) (hj : s.sent[j]? = some ⟨dst, key, m, .inFlight⟩) :
    { s.setNode dst ((s.node dst).onMessage key m.s m.w) with
      sent := s.sent.set j ⟨dst, key, m, .delivered⟩ }.Conserved := by
  intro k
  have hin := inboxes_append h dst key m k
  have hfl := inFlight_taken hj PacketState.noConfusion
    (show { s with sent := s.sent.set j ⟨dst, key, m, .delivered⟩ }.sent = _ from rfl) k
  change (s.setNode dst ((s.node dst).append key m)).inboxes k +
    { s with sent := s.sent.set j ⟨dst, key, m, .delivered⟩ }.inFlight k = s.startedMass k
  linear_combination hin + hfl + hc k

section
omit [DecidableEq ν]

theorem Conserved.lose [Fintype ν] {s : PushSum ν κ} {dst : ν} {key : κ}
    (hc : s.Conserved) (hj : s.sent[j]? = some ⟨dst, key, ⟨0, 0⟩, .inFlight⟩) :
    { s with sent := s.sent.set j ⟨dst, key, ⟨0, 0⟩, .lost⟩ }.Conserved := by
  intro k
  have hfl := inFlight_taken hj PacketState.noConfusion
    (show { s with sent := s.sent.set j ⟨dst, key, ⟨0, 0⟩, .lost⟩ }.sent = _ from rfl) k
  have hzero : (if key = k then Mass.pair ⟨0, 0⟩ else 0) = 0 := ite_self _
  rw [hzero, add_zero] at hfl
  rw [hfl]
  exact hc k

theorem Conserved.advance [Fintype ν] {s s' : PushSum ν κ} (hc : s.Conserved)
    (hst : s'.started = s.started)
    (hsum : ∀ k, s'.inboxes k + s'.inFlight k = s.inboxes k + s.inFlight k)
    (rounds : List (PushRound ν κ)) : { s' with rounds := rounds }.Conserved := by
  intro k
  have hstart : s'.startedMass k = s.startedMass k := by rw [startedMass, startedMass, hst]
  exact (hsum k).trans ((hc k).trans hstart.symm)

end

theorem Conserved.step [Fintype ν] {s s' : PushSum ν κ} (h : s.Ok ∧ s.Conserved)
    (hk : s.Keeps a) (hs : s.step a = some s') : s'.Ok ∧ s'.Conserved := by
  obtain ⟨hok, hc⟩ := h
  obtain ⟨n, key, value, weight, rfl, rfl⟩ | ⟨n, peer, s₁, t, rfl, ha, rfl⟩ |
    ⟨j, dst, key, mass, rfl, hj, rfl⟩ | ⟨r, n, j, todo, peer, s₁, t, rfl, hr, ha, rfl⟩ |
    ⟨r, n, j, todo, peer, s₁, t, dst, key, mass, rfl, hr, hj, ha, rfl⟩ := step_cases hs
  · have hset := hok.append n key ⟨value, weight⟩
    exact ⟨⟨hset.node, hset.rounds⟩, hc.start hok n key value weight⟩
  · obtain ⟨hok₁, hr, ht, hst, hsum⟩ :=
      advance_spec hok (hok.node n).todo (s.node n).current_items ha
    exact ⟨hok₁.append_round hr ht, hc.advance hst hsum _⟩
  · have hset := hok.append dst key mass
    exact ⟨⟨hset.node, hset.rounds⟩, hc.deliver hok hj⟩
  · simp only [Keeps, hr] at hk
    obtain ⟨hok₁, hr₁, ht, hst, hsum⟩ :=
      advance_spec hok (hok.rounds _ (List.mem_of_getElem? hr)) hk.1 ha
    exact ⟨hok₁.set_round hr₁ ht, hc.advance hst hsum _⟩
  · simp only [Keeps, hr] at hk
    have hzero : mass = ⟨0, 0⟩ := hk.2 trivial _ hj
    subst hzero
    have hlose := hc.lose hj
    have hok' : { s with sent := s.sent.set j ⟨dst, key, ⟨0, 0⟩, .lost⟩ }.Ok :=
      ⟨hok.node, hok.rounds⟩
    obtain ⟨hok₁, hr₁, ht, hst, hsum⟩ :=
      advance_spec hok' (hok.rounds _ (List.mem_of_getElem? hr)) hk.1 ha
    exact ⟨hok₁.set_round hr₁ ht, hlose.advance hst hsum _⟩

instance (s : PushSum ν κ) (a : PushAction ν κ) : Decidable (s.Keeps a) := by
  unfold Keeps
  split
  · split
    · infer_instance
    · infer_instance
  · infer_instance

end PushSum

open PushSum

/-- In every run in which no round reads a list that has left the inbox and no failed send carries
mass, all mass that was started is in an inbox or in flight in every state. -/
theorem push_sum_conserves_mass {ν κ : Type} [DecidableEq ν] [Fintype ν] [DecidableEq κ]
    {past : List (PushSum ν κ × PushAction ν κ)} {s : PushSum ν κ}
    (h : Run PushSum.step init past s) (hk : ∀ p ∈ past, p.1.Keeps p.2) : s.Conserved :=
  (h.invariant hk ⟨Ok.init, Conserved.init⟩ (fun _ _ _ => Conserved.step)).2

/-- Two aggregators exchange mass, and one of their sends fails when it has no mass to send. -/
theorem push_sum_conserves_mass_of_two : ∃ past s,
    Run PushSum.step (init : PushSum Bool ℕ) past s ∧ (∀ p ∈ past, p.1.Keeps p.2) ∧
      s.Conserved ∧ (s.node false).mass 7 = (6, 1) ∧ (s.node true).mass 7 = (6, 1) := by
  obtain ⟨past, s, hr, hk, hs⟩ := exists_run_of_execWhere PushSum.step Keeps
    (init : PushSum Bool ℕ)
    [.start false 7 4 1, .start true 7 8 1, .start true 3 0 0, .round false (some true),
      .round true (some false), .deliver 0, .resume 1 true (some false), .resume 0 true none,
      .deliver 1, .resume 1 false none]
    (fun s => ((s.node false).mass 7, (s.node true).mass 7)) ((6, 1), (6, 1))
    (by decide +kernel)
  obtain ⟨hfalse, htrue⟩ := Prod.ext_iff.1 hs
  exact ⟨past, s, hr, hk, push_sum_conserves_mass hr hk, hfalse, htrue⟩

/-- A send that returns `False` loses the half of the mass that it carries. -/
theorem failed_send_loses_mass : ∃ past s, Run PushSum.step (init : PushSum Bool ℕ) past s ∧
    ¬ s.Conserved := by
  obtain ⟨past, s, hr, hs⟩ := exists_run_of_exec PushSum.step (init : PushSum Bool ℕ)
    [.start false 7 4 1, .round false (some true), .resume 0 false none]
    (fun s => (s.inboxes 7 + s.inFlight 7, s.startedMass 7)) ((2, 1 / 2), (4, 1))
    (by decide +kernel)
  obtain ⟨hsum, hstarted⟩ := Prod.ext_iff.1 hs
  refine ⟨past, s, hr, fun hc => ?_⟩
  have h7 := (hsum.symm.trans (hc 7)).trans hstarted
  exact absurd h7 (by decide)

end Suprime
