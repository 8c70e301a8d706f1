import Suprime.Polling
import Suprime.PyFloats

namespace Suprime
set_option autoImplicit true

/-- `max(l, key=f)`: the first of the greatest, which only a greater one replaces. -/
def firstMax (f : β → PyNum) (l : List β) : Option β :=
  l.foldl (fun o e =>
    match o with
    | none => some e
    | some c => if (f e).gt (f c) then some e else some c) none

theorem firstNewest_of_lt {V : Type} [LinearOrder V] {ver : β → V} {l : List β} {b : β}
    (hb : b ∈ l) (h : ∀ x ∈ l, x ≠ b → ver x < ver b) [DecidableEq β] : FirstNewest ver l b := by
  obtain ⟨pre, post, hpre, rfl, -⟩ := List.exists_erase_eq hb
  refine ⟨pre, post, rfl, fun x hx => ?_, fun x hx => ?_⟩
  · exact h x (List.mem_append_left _ hx) (fun he => hpre (he ▸ hx))
  · by_cases hxb : x = b
    · rw [hxb]
    · exact (h x (List.mem_append_right _ (List.mem_cons_of_mem _ hx)) hxb).le

/-- What `json.loads` returns for a value: there are no tuples. -/
abbrev JsonValue (F : Type) := { v : PyValue F // ∀ l, v ≠ .tuple l }

def JsonValue.null : JsonValue F := ⟨.none, fun _ h => by cases h⟩

section
variable {F ν κ : Type} [RationalFloat F] [DecidableEq F] [DecidableEq ν] [DecidableEq κ]

/-- The key of a dict that a value is; `none` stands for `TypeError`. -/
def JsonValue.hash (v : JsonValue F) : Option (PyKey F) := v.1.toKey.map PyKey.number

/-- `v == w`. NaN is not equal to itself. -/
def JsonValue.eq (v w : JsonValue F) : Bool := pySame v.1 w.1 && v.1.toNum ≠ some .nan

section
omit [DecidableEq F]

end

/-- Per-node reputation, in floats. -/
structure FloatLedger (ν : Type) where
  scores : Dict ν PyNum
  initial : PyNum
  max : PyNum

namespace FloatLedger

def init (initial maxScore : PyNum) : FloatLedger ν := ⟨.empty, initial, maxScore⟩

def score (l : FloatLedger ν) (nodeId : ν) : PyNum := (l.scores.get nodeId).getD l.initial

def weight (l : FloatLedger ν) (nodeId : ν) : PyNum := .max (.rat 0) (l.score nodeId)

def reward (l : FloatLedger ν) (nodeId : ν) (amount : PyNum) : FloatLedger ν :=
  { l with scores := l.scores.set nodeId (.min l.max ((l.score nodeId).add amount)) }

def penalize (l : FloatLedger ν) (nodeId : ν) (amount : PyNum) : FloatLedger ν :=
  { l with scores := l.scores.set nodeId (.max (.rat 0) ((l.score nodeId).sub amount)) }

theorem nonNeg_weight (l : FloatLedger ν) (nodeId : ν) : (l.weight nodeId).NonNeg :=
  PyNum.nonNeg_max_zero _

end FloatLedger

/-- A register whose votes came off the wire, with the arithmetic of doubles. -/
structure WireRegister (ν κ F : Type) where
  ledger : FloatLedger ν
  quorum : PyNum
  votes : Dict κ (Dict ν (JsonValue F))

namespace WireRegister

def init (ledger : FloatLedger ν) (quorum : PyNum) : WireRegister ν κ F :=
  ⟨ledger, quorum, .empty⟩

def votesFor (r : WireRegister ν κ F) (key : κ) : Dict ν (JsonValue F) :=
  (r.votes.get key).getD .empty

def recordVote (r : WireRegister ν κ F) (key : κ) (nodeId : ν) (value : JsonValue F) :
    WireRegister ν κ F :=
  { r with votes := r.votes.set key ((r.votesFor key).set nodeId value) }

/-- The votes of a message are recorded one after the other. -/
def onVote (r : WireRegister ν κ F) (src : ν) (votes : List (κ × JsonValue F)) :
    WireRegister ν κ F :=
  votes.foldl (fun r p => r.recordVote p.1 src p.2) r

/-- `totals[value] = totals.get(value, 0.0) + w`: the first of equal values stays the key. -/
def addVote (w : ν → PyNum) (d : Dict (PyKey F) (JsonValue F × PyNum)) (p : ν × JsonValue F) :
    Option (Dict (PyKey F) (JsonValue F × PyNum)) :=
  p.2.hash.map (fun k =>
    match d.get k with
    | none => d.set k (p.2, (PyNum.rat 0).add (w p.1))
    | some (v, x) => d.set k (v, x.add (w p.1)))

/-- The sum of the weights of the voters, rounded after each addition. -/
def floatSum (w : ν → PyNum) (votes : List (ν × β)) : PyNum :=
  votes.foldl (fun x p => x.add (w p.1)) (.rat 0)

/-- `tally` by the weights of the voters; `none` stands for an exception. -/
def plurality (w : ν → PyNum) (quorum : PyNum) (votes : List (ν × JsonValue F)) :
    Option (JsonValue F) :=
  (votes.foldlM (addVote w) .empty).map (fun d =>
    let total := floatSum w votes
    if (PyNum.rat 0).ge total then .null
    else match firstMax (fun p => p.2.2) d.items with
      | none => .null
      | some best => if best.2.2.ge (quorum.mul total) then best.2.1 else .null)

def tally (r : WireRegister ν κ F) (key : κ) : Option (JsonValue F) :=
  if (r.votesFor key).items.isEmpty then some .null
  else plurality r.ledger.weight r.quorum (r.votesFor key).items

/-- The rewards and penalties of `resolve`. -/
def judge (accepted : JsonValue F) (l : FloatLedger ν) (p : ν × JsonValue F) : FloatLedger ν :=
  if p.2.eq accepted then l.reward p.1 (roundDouble (1 / 5)) else l.penalize p.1 (.rat (1 / 2))

def resolve (r : WireRegister ν κ F) (key : κ) : Option (JsonValue F × WireRegister ν κ F) :=
  (tally r key).map (fun accepted =>
    match accepted.1 with
    | .none => (.null, r)
    | _ => (accepted, { r with
      ledger := (r.votesFor key).items.foldl (judge accepted) r.ledger }))

/-- The votes that can be counted, by the keys that their values are. -/
def keyed (votes : List (ν × JsonValue F)) : List (ν × PyKey F) :=
  votes.filterMap (fun p => p.2.hash.map (fun k => (p.1, k)))

def votesOf (votes : List (ν × PyKey F)) (k : PyKey F) : List (ν × PyKey F) :=
  votes.filter (fun p => p.2 = k)

/-- The voters for the values that are one key hold more than half of a positive weight. -/
def Majority (w : ν → PyNum) (votes : List (ν × JsonValue F)) (k : PyKey F) : Prop :=
  ∃ exact : ν → ℚ, (∀ p ∈ votes, w p.1 = .rat (exact p.1)) ∧
    0 < QuorumRegister.totalWeight exact votes ∧
    QuorumRegister.totalWeight exact votes / 2 <
      QuorumRegister.totalWeight exact (votesOf (keyed votes) k)

section
omit [DecidableEq ν]

end

/-- Every total stands at the key of its value. -/
def Keyed (d : Dict (PyKey F) (JsonValue F × PyNum)) : Prop :=
  ∀ k v x, d.get k = some (v, x) → v.hash = some k

section
omit [DecidableEq ν]

end

section
omit [DecidableEq F] [DecidableEq ν]

theorem keyed_cons {p : ν × JsonValue F} (hk : p.2.hash = some k) (votes : List (ν × JsonValue F)) :
    keyed (p :: votes) = (p.1, k) :: keyed votes := by
  rw [keyed, List.filterMap_cons, hk]
  rfl

end

def totals (w : ν → PyNum) (votes : List (ν × PyKey F)) : Dict (PyKey F) PyNum :=
  votes.foldl (fun d p => d.set p.2 (((d.get p.2).getD (.rat 0)).add (w p.1))) .empty

section
omit [DecidableEq ν]

end

section
omit [DecidableEq ν] [RationalFloat F]

theorem totals_concat (w : ν → PyNum) (votes : List (ν × PyKey F)) (p : ν × PyKey F) :
    totals w (votes ++ [p]) =
      (totals w votes).set p.2 ((((totals w votes).get p.2).getD (.rat 0)).add (w p.1)) := by
  rw [totals, List.foldl_append]
  rfl

end

section
omit [DecidableEq ν]

theorem floatSum_concat (w : ν → PyNum) (votes : List (ν × β)) (p : ν × β) :
    floatSum w (votes ++ [p]) = (floatSum w votes).add (w p.1) := by
  rw [floatSum, List.foldl_append]
  rfl

end

section
omit [DecidableEq ν] [RationalFloat F]

theorem votesOf_concat (votes : List (ν × PyKey F)) (p : ν × PyKey F) (k : PyKey F) :
    votesOf (votes ++ [p]) k = if p.2 = k then votesOf votes k ++ [p] else votesOf votes k := by
  rw [votesOf, List.filter_append]
  by_cases h : p.2 = k
  · simp [h, votesOf]
  · simp [h, votesOf]

theorem votesOf_eq_nil {votes : List (ν × PyKey F)} {k : PyKey F}
    (h : k ∉ votes.map Prod.snd) : votesOf votes k = [] := by
  apply List.filter_eq_nil_iff.2
  intro p hp he
  exact h (List.mem_map.2 ⟨p, hp, of_decide_eq_true he⟩)

theorem get_totals (w : ν → PyNum) (votes : List (ν × PyKey F)) (k : PyKey F) :
    (totals w votes).get k =
      if k ∈ votes.map Prod.snd then some (floatSum w (votesOf votes k)) else none := by
  induction votes using List.reverseRecOn with
  | nil => rfl
  | append_singleton votes p ih =>
    rw [totals_concat, Dict.get_set, votesOf_concat]
    by_cases hk : k = p.2
    · subst hk
      have hold : ((totals w votes).get p.2).getD (.rat 0) = floatSum w (votesOf votes p.2) := by
        rw [ih]
        split
        · rfl
        · rename_i hmem
          rw [votesOf_eq_nil hmem]
          rfl
      rw [hold, if_pos rfl, if_pos rfl, if_pos (by simp), floatSum_concat]
    · have hmem : k ∈ (votes ++ [p]).map Prod.snd ↔ k ∈ votes.map Prod.snd := by
        rw [List.map_append, List.mem_append, List.map_singleton, List.mem_singleton]
        exact or_iff_left hk
      rw [if_neg hk, ih, if_neg (Ne.symm hk)]
      by_cases h : k ∈ votes.map Prod.snd
      · rw [if_pos h, if_pos (hmem.2 h)]
      · rw [if_neg h, if_neg (fun h' => h (hmem.1 h'))]

end

/-- The value is the first of those with the greatest float sum, and meets the quorum. -/
def Leads (w : ν → PyNum) (quorum : PyNum) (votes : List (ν × JsonValue F)) (k : PyKey F) : Prop :=
  (PyNum.rat 0).ge (floatSum w votes) = false ∧
    FirstNewest (fun k => (floatSum w (votesOf (keyed votes) k)).rank)
      ((keyed votes).map Prod.snd) k ∧
    (floatSum w (votesOf (keyed votes) k)).ge (quorum.mul (floatSum w votes)) = true

section
omit [DecidableEq ν] [RationalFloat F]

end

section
omit [DecidableEq ν]

end

/-- Rounding leaves no value behind that holds the majority of the weight as it is. -/
def RoundingKeeps (r : WireRegister ν κ F) (key : κ) : Prop :=
  ∀ k ≠ PyKey.none, Majority r.ledger.weight (r.votesFor key).items k →
    (PyNum.rat (1 / 2)).ge r.quorum = true →
    Leads r.ledger.weight r.quorum (r.votesFor key).items k

/-- No sum of some of the weights has to be rounded, and neither has the share of the quorum. -/
def NothingRounded (r : WireRegister ν κ F) (key : κ) : Prop :=
  ∀ exact : ν → ℚ, (∀ p ∈ (r.votesFor key).items, r.ledger.weight p.1 = .rat (exact p.1)) →
    (∀ l : List ν, l.Sublist ((r.votesFor key).items.map Prod.fst) →
      roundDouble (l.map exact).sum = .rat (l.map exact).sum) ∧
    ∀ q, r.quorum = .rat q →
      roundDouble (q * QuorumRegister.totalWeight exact (r.votesFor key).items) =
        .rat (q * QuorumRegister.totalWeight exact (r.votesFor key).items)

section
omit [DecidableEq ν]

theorem floatSum_of_exact {w : ν → PyNum} {exact : ν → ℚ} {votes : List (ν × β)}
    (hw : ∀ p ∈ votes, w p.1 = .rat (exact p.1))
    (hround : ∀ l : List ν, l.Sublist (votes.map Prod.fst) →
      roundDouble (l.map exact).sum = .rat (l.map exact).sum) :
    floatSum w votes = .rat (QuorumRegister.totalWeight exact votes) := by
  induction votes using List.reverseRecOn with
  | nil => rfl
  | append_singleton votes p ih =>
    have hsum := hround _ (List.Sublist.refl _)
    rw [List.map_append] at hround
    have ih := ih (fun q hq => hw q (List.mem_append_left _ hq))
      (fun l hl => hround l (hl.trans (List.sublist_append_left _ _)))
    rw [floatSum_concat, ih, hw p (List.mem_append_right _ List.mem_cons_self), PyNum.add]
    simpa [QuorumRegister.totalWeight, List.map_map, Function.comp_def] using hsum

end

section
omit [DecidableEq F] [DecidableEq ν]

theorem map_fst_keyed {votes : List (ν × JsonValue F)} (h : ∀ p ∈ votes, p.2.hash ≠ none) :
    (keyed votes).map Prod.fst = votes.map Prod.fst := by
  induction votes with
  | nil => rfl
  | cons p votes ih =>
    obtain ⟨k, hk⟩ := Option.ne_none_iff_exists'.1 (h p List.mem_cons_self)
    rw [keyed_cons hk, List.map_cons, List.map_cons,
      ih (fun q hq => h q (List.mem_cons_of_mem p hq))]

end

section
omit [DecidableEq ν] [RationalFloat F]

theorem totalWeight_add_le {exact : ν → ℚ} {votes : List (ν × PyKey F)}
    (hw : ∀ p ∈ votes, 0 ≤ exact p.1) {k k' : PyKey F} (hk : k' ≠ k) :
    QuorumRegister.totalWeight exact (votesOf votes k') +
      QuorumRegister.totalWeight exact (votesOf votes k) ≤
        QuorumRegister.totalWeight exact votes := by
  induction votes using List.reverseRecOn with
  | nil => exact le_of_eq (add_zero 0)
  | append_singleton votes p ih =>
    have ih := ih (fun q hq => hw q (List.mem_append_left _ hq))
    have hp := hw p (List.mem_append_right _ List.mem_cons_self)
    have hconcat : ∀ l : List (ν × PyKey F), QuorumRegister.totalWeight exact (l ++ [p]) =
        QuorumRegister.totalWeight exact l + exact p.1 := by
      intro l
      simp [QuorumRegister.totalWeight]
    rw [votesOf_concat, votesOf_concat, hconcat]
    by_cases h : p.2 = k'
    · rw [if_pos h, if_neg (fun h' => hk (h.symm.trans h')), hconcat]
      linarith
    · rw [if_neg h]
      split
      · rw [hconcat]
        linarith
      · linarith

end

section
omit [DecidableEq F] [DecidableEq ν]

theorem exact_keyed {w : ν → PyNum} {exact : ν → ℚ} {votes : List (ν × JsonValue F)}
    (hhash : ∀ p ∈ votes, p.2.hash ≠ none) (hexact : ∀ p ∈ votes, w p.1 = .rat (exact p.1)) :
    ∀ p ∈ keyed votes, w p.1 = .rat (exact p.1) := by
  intro p hp
  have hmem := List.mem_map_of_mem (f := Prod.fst) hp
  rw [map_fst_keyed hhash] at hmem
  obtain ⟨q, hq, he⟩ := List.mem_map.1 hmem
  rw [← he]
  exact hexact q hq

theorem totalWeight_keyed (exact : ν → ℚ) {votes : List (ν × JsonValue F)}
    (hhash : ∀ p ∈ votes, p.2.hash ≠ none) :
    QuorumRegister.totalWeight exact (keyed votes) = QuorumRegister.totalWeight exact votes := by
  have hkeyed : QuorumRegister.totalWeight exact (keyed votes) =
      (((keyed votes).map Prod.fst).map exact).sum := by
    rw [List.map_map]
    rfl
  rw [hkeyed, map_fst_keyed hhash, List.map_map]
  rfl

end

section
omit [DecidableEq ν]

theorem floatSum_votesOf {w : ν → PyNum} {exact : ν → ℚ} {votes : List (ν × JsonValue F)}
    (hhash : ∀ p ∈ votes, p.2.hash ≠ none) (hexact : ∀ p ∈ votes, w p.1 = .rat (exact p.1))
    (hround : ∀ l : List ν, l.Sublist (votes.map Prod.fst) →
      roundDouble (l.map exact).sum = .rat (l.map exact).sum) (k : PyKey F) :
    floatSum w (votesOf (keyed votes) k) =
      .rat (QuorumRegister.totalWeight exact (votesOf (keyed votes) k)) := by
  apply floatSum_of_exact
  · exact fun p hp => exact_keyed hhash hexact p (List.mem_filter.1 hp).1
  · intro l hl
    apply hround
    rw [← map_fst_keyed hhash]
    exact hl.trans (List.filter_sublist.map _)

end

/-- More than half of a total meets every quorum of at most a half. -/
theorem ge_mul_of_half_lt {quorum : PyNum} {x total : ℚ} (hpos : 0 < total)
    (hhalf : total / 2 < x) (hq : (PyNum.rat (1 / 2)).ge quorum = true)
    (hround : ∀ q, quorum = .rat q → roundDouble (q * total) = .rat (q * total)) :
    (PyNum.rat x).ge (quorum.mul (.rat total)) = true := by
  cases quorum with
  | nan => cases hq
  | inf neg =>
    cases neg with
    | false => cases hq
    | true => simp [PyNum.mul, hpos.ne', not_lt.2 hpos.le, PyNum.ge, PyNum.gt]
  | rat q =>
    have hq' : q ≤ 1 / 2 := by
      simp only [PyNum.ge, PyNum.gt, Bool.or_eq_true, decide_eq_true_eq, Bool.and_eq_true,
        PyNum.rat.injEq] at hq
      rcases hq with hq | ⟨hq, -⟩
      · exact hq.le
      · exact hq.ge
    have hmul : q * total ≤ 1 / 2 * total := mul_le_mul_of_nonneg_right hq' hpos.le
    rw [PyNum.mul, hround q rfl]
    simp only [PyNum.ge, PyNum.gt, Bool.or_eq_true, decide_eq_true_eq]
    left
    linarith

theorem NothingRounded.keeps {r : WireRegister ν κ F} {key : κ} (h : NothingRounded r key)
    (hhash : ∀ p ∈ (r.votesFor key).items, p.2.hash ≠ none) : RoundingKeeps r key := by
  rintro k hk ⟨exact, hexact, hpos, hhalf⟩ hq
  obtain ⟨hround, hshare⟩ := h exact hexact
  have htotal := floatSum_of_exact hexact hround
  have hsum := floatSum_votesOf hhash hexact hround
  have hnonneg : ∀ p ∈ keyed (r.votesFor key).items, 0 ≤ exact p.1 := by
    intro p hp
    have hw := r.ledger.nonNeg_weight p.1
    rw [exact_keyed hhash hexact p hp] at hw
    exact hw
  refine ⟨?_, ?_, ?_⟩
  · rw [htotal]
    simp [PyNum.ge, PyNum.gt, hpos.le, hpos.ne]
  · apply firstNewest_of_lt
    · by_contra hno
      rw [votesOf_eq_nil hno] at hhalf
      exact absurd hhalf (not_lt.2 (half_pos hpos).le)
    · intro k' _ hk'
      have hle := totalWeight_add_le hnonneg hk'
      rw [totalWeight_keyed exact hhash] at hle
      rw [hsum, hsum]
      exact WithTop.coe_lt_coe.2 (by linarith)
  · rw [htotal, hsum]
    exact ge_mul_of_half_lt hpos hhalf hq hshare

/-- A vote for `2` of weight 1, and two votes for `1` of weights 1 and 2^-53, which is lost when it
is added to 1. -/
def absorbed : WireRegister (Fin 3) (Fin 1) ℕ :=
  [(0, ⟨.int 2, fun _ h => by cases h⟩), (1, ⟨.int 1, fun _ h => by cases h⟩),
    (2, ⟨.int 1, fun _ h => by cases h⟩)].foldl (fun r p => onVote r p.1 [(0, p.2)])
    (.init ⟨.ofList [(2, .rat (1 / 2 ^ 53))], .rat 1, .rat 5⟩ (.rat (1 / 2)))

example : (tally absorbed 0).bind JsonValue.hash = some (.int 2) := by decide +kernel

end WireRegister

end

end Suprime
