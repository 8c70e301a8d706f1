import Mathlib.Algebra.BigOperators.Group.Finset.Basic
import Mathlib.Algebra.Order.BigOperators.Group.Finset
import Mathlib.Combinatorics.SimpleGraph.Acyclic
import Mathlib.Data.Fintype.Prod
import Mathlib.Data.List.Nodup

namespace Suprime
set_option autoImplicit true

/-- The list has the elements with the property, each once. -/
def Lists (l : List α) (P : α → Prop) : Prop := l.Nodup ∧ ∀ x, x ∈ l ↔ P x

theorem Lists.congr {l : List α} (h : Lists l P) (hPQ : ∀ x, Q x ↔ P x) : Lists l Q :=
  ⟨h.1, fun x => (h.2 x).trans (hPQ x).symm⟩

theorem Lists.perm {l l' : List α} (h : Lists l P) (hp : l'.Perm l) : Lists l' P :=
  ⟨hp.nodup_iff.2 h.1, fun x => hp.mem_iff.trans (h.2 x)⟩

theorem Lists.tail {l : List α} (h : Lists (a :: l) P) : Lists l (fun x => P x ∧ x ≠ a) := by
  obtain ⟨ha, hl⟩ := List.nodup_cons.1 h.1
  refine ⟨hl, fun x => ?_⟩
  change x ∈ l ↔ P x ∧ x ≠ a
  rw [← h.2, List.mem_cons]
  constructor
  · intro hx
    refine ⟨.inr hx, ?_⟩
    rintro rfl
    exact ha hx
  · rintro ⟨hx, hne⟩
    exact hx.resolve_left hne

theorem Lists.concat {l : List α} (h : Lists l P) (ha : ¬P a) :
    Lists (l ++ [a]) (fun x => P x ∨ x = a) := by
  refine ⟨h.1.append (List.nodup_singleton a) ?_, fun x => ?_⟩
  · rw [List.disjoint_singleton, h.2]
    exact ha
  · rw [List.mem_append, List.mem_singleton, h.2]

/-- The copy of a flooded message on a link in one direction: not due, waiting at its source, under
way, arrived as the first one at its target, arrived at a target that had one already (which has
sent back a refusal), or refused. -/
inductive Copy
  | idle
  | waiting
  | flying
  | first
  | surplus
  | refused
  deriving DecidableEq

/-- How far a copy has come. -/
def Copy.stage : Copy → ℕ
  | .idle => 0
  | .waiting => 1
  | .flying => 2
  | .first => 3
  | .surplus => 3
  | .refused => 4

def Copy.sent : Copy → Bool
  | .idle => false
  | .waiting => false
  | _ => true

/-- The copies of one flooded message, by source and target. -/
abbrev Flood (V : Type) := V → V → Copy

namespace Flood

variable {V : Type} [DecidableEq V] {E : SimpleGraph V} {r : V} {f : Flood V}

def quiet : Flood V := fun _ _ => .idle

def set (f : Flood V) (a b : V) (c : Copy) : Flood V :=
  fun x y => if x = a ∧ y = b then c else f x y

/-- The vertex gets the message and is to send it to its neighbours, except the one it is from. -/
noncomputable def start (E : SimpleGraph V) (f : Flood V) (n : V) (sender : Option V) : Flood V :=
  open Classical in fun x y => if x = n ∧ E.Adj n y ∧ some y ≠ sender then .waiting else f x y

/-- The vertices that have the message. -/
inductive Has (f : Flood V) (r : V) : V → Prop
  | root : Has f r r
  | first : f a b = .first → Has f r a → Has f r b

/-- What holds all through a flood of `E` from `r`. -/
structure Ok (E : SimpleGraph V) (r : V) (f : Flood V) : Prop where
  adj : f a b ≠ .idle → E.Adj a b
  source : f a b ≠ .idle → Has f r a
  target : f a b = .surplus ∨ f a b = .refused → Has f r b
  root : f a r ≠ .first
  unique : f a b = .first → f a' b = .first → a = a'
  back : f b a = .first → f a b = .idle
  complete : Has f r a → E.Adj a b → f b a ≠ .first → f a b ≠ .idle

/-- No copy is waiting or under way, and no refusal is. -/
def Over (f : Flood V) : Prop :=
  ∀ a b, f a b ≠ .waiting ∧ f a b ≠ .flying ∧ f a b ≠ .surplus

/-- Nothing that has reached the vertex on the link to the other speaks against it. -/
def Live (f : Flood V) (n a : V) : Prop :=
  f a n ≠ .surplus ∧ f a n ≠ .refused ∧ f n a ≠ .refused

theorem set_self (f : Flood V) (a b : V) (c : Copy) : f.set a b c a b = c :=
  if_pos ⟨rfl, rfl⟩

theorem set_of_ne {f : Flood V} (h : ¬(x = a ∧ y = b)) : f.set a b c x y = f x y :=
  if_neg h

theorem set_eq {f : Flood V} (h : f.set a b c x y = c') :
    x = a ∧ y = b ∧ c = c' ∨ ¬(x = a ∧ y = b) ∧ f x y = c' := by
  by_cases hxy : x = a ∧ y = b
  · obtain ⟨rfl, rfl⟩ := hxy
    rw [set_self] at h
    exact .inl ⟨rfl, rfl, h⟩
  · rw [set_of_ne hxy] at h
    exact .inr ⟨hxy, h⟩

theorem start_at (h : E.Adj n y) (hs : some y ≠ sender) : start E f n sender n y = .waiting :=
  if_pos ⟨rfl, h, hs⟩

theorem start_of_not (h : ¬(x = n ∧ E.Adj n y ∧ some y ≠ sender)) :
    start E f n sender x y = f x y :=
  if_neg h

section
omit [DecidableEq V]

theorem Has.mono {g : Flood V} (h : ∀ a b, f a b = .first → g a b = .first) (hn : Has f r n) :
    Has g r n := by
  induction hn with
  | root => exact .root
  | first hab _ ih => exact .first (h _ _ hab) ih

theorem Has.cases_ne (h : Has f r n) (hn : n ≠ r) : ∃ a, f a n = .first ∧ Has f r a := by
  cases h with
  | root => exact absurd rfl hn
  | first hab ha => exact ⟨_, hab, ha⟩

end

/-- A copy that is neither due nor the first changes to another such: nobody gets the message. -/
theorem has_set (hf : f a b ≠ .first) (hc : c ≠ .first) : Has (f.set a b c) r n ↔ Has f r n := by
  constructor
  · apply Has.mono
    intro x y h
    rcases set_eq h with ⟨_, _, he⟩ | ⟨_, h⟩
    · exact absurd he hc
    · exact h
  · apply Has.mono
    intro x y h
    rw [set_of_ne, h]
    rintro ⟨rfl, rfl⟩
    exact hf h

theorem Ok.set (h : f.Ok E r) (hf : f a b ≠ .idle) (hf' : f a b ≠ .first) (hc : c ≠ .idle)
    (hc' : c ≠ .first) (ht : c = .surplus ∨ c = .refused → Has f r b) : (f.set a b c).Ok E r := by
  have hhas : ∀ n, Has (f.set a b c) r n ↔ Has f r n := fun n => has_set hf' hc'
  have hidle : ∀ {x y}, f.set a b c x y ≠ .idle ↔ f x y ≠ .idle := by
    intro x y
    by_cases hxy : x = a ∧ y = b
    · obtain ⟨rfl, rfl⟩ := hxy
      rw [set_self]
      exact iff_of_true hc hf
    · rw [set_of_ne hxy]
  have hfirst : ∀ {x y}, f.set a b c x y = .first ↔ f x y = .first := by
    intro x y
    by_cases hxy : x = a ∧ y = b
    · obtain ⟨rfl, rfl⟩ := hxy
      rw [set_self]
      exact iff_of_false hc' hf'
    · rw [set_of_ne hxy]
  constructor
  · exact fun hxy => h.adj (hidle.1 hxy)
  · exact fun hxy => (hhas _).2 (h.source (hidle.1 hxy))
  · intro x y hxy
    rw [hhas]
    by_cases hab : x = a ∧ y = b
    · obtain ⟨rfl, rfl⟩ := hab
      rw [set_self] at hxy
      exact ht hxy
    · rw [set_of_ne hab] at hxy
      exact h.target hxy
  · exact fun hx => h.root (hfirst.1 hx)
  · exact fun hx hy => h.unique (hfirst.1 hx) (hfirst.1 hy)
  · exact fun hx => not_not.1 (fun hne => hidle.1 hne (h.back (hfirst.1 hx)))
  · exact fun hx hadj hne => hidle.2 (h.complete ((hhas _).1 hx) hadj (fun hy => hne (hfirst.2 hy)))

/-- At the start copies wait at the root for all its neighbours, and there are no others. -/
theorem start_quiet (E : SimpleGraph V) (r x y : V) :
    x = r ∧ E.Adj r y ∧ start E quiet r none x y = .waiting ∨
      ¬(x = r ∧ E.Adj r y) ∧ start E quiet r none x y = .idle := by
  by_cases h : x = r ∧ E.Adj r y
  · obtain ⟨rfl, hadj⟩ := h
    exact .inl ⟨rfl, hadj, start_at hadj (Option.some_ne_none y)⟩
  · refine .inr ⟨h, ?_⟩
    rw [start_of_not (fun he => h ⟨he.1, he.2.1⟩)]
    rfl

theorem start_ne (E : SimpleGraph V) (r x y : V) (hc : c ≠ .waiting) (hc' : c ≠ .idle) :
    start E quiet r none x y ≠ c := by
  intro h
  rcases start_quiet E r x y with ⟨_, _, he⟩ | ⟨_, he⟩
  · exact hc (h.symm.trans he)
  · exact hc' (h.symm.trans he)

theorem start_eq_waiting (E : SimpleGraph V) (r x y : V) :
    start E quiet r none x y = .waiting ↔ x = r ∧ E.Adj r y := by
  rcases start_quiet E r x y with ⟨hx, hadj, he⟩ | ⟨hne, he⟩
  · exact iff_of_true he ⟨hx, hadj⟩
  · rw [he]
    exact iff_of_false Copy.noConfusion hne

theorem has_start (E : SimpleGraph V) (r : V) : Has (start E quiet r none) r n ↔ n = r := by
  constructor
  · intro h
    by_contra hne
    obtain ⟨x, hx, _⟩ := h.cases_ne hne
    exact start_ne E r x n Copy.noConfusion Copy.noConfusion hx
  · rintro rfl
    exact .root

theorem live_start (E : SimpleGraph V) (r n x : V) : Live (start E quiet r none) n x :=
  ⟨start_ne E r x n Copy.noConfusion Copy.noConfusion,
    start_ne E r x n Copy.noConfusion Copy.noConfusion,
    start_ne E r n x Copy.noConfusion Copy.noConfusion⟩

theorem ok_start (E : SimpleGraph V) (r : V) : (start E quiet r none).Ok E r := by
  have hwait : ∀ {a b}, start E quiet r none a b ≠ .idle → a = r ∧ E.Adj r b := by
    intro a b h
    rcases start_quiet E r a b with ⟨ha, hadj, _⟩ | ⟨_, he⟩
    · exact ⟨ha, hadj⟩
    · exact absurd he h
  have hfirst : ∀ a b, start E quiet r none a b ≠ .first :=
    fun a b => start_ne E r a b Copy.noConfusion Copy.noConfusion
  constructor
  · intro a b h
    obtain ⟨rfl, hadj⟩ := hwait h
    exact hadj
  · intro a b h
    rw [(hwait h).1]
    exact .root
  · intro a b h
    rcases h with h | h
    · exact absurd h (start_ne E r a b Copy.noConfusion Copy.noConfusion)
    · exact absurd h (start_ne E r a b Copy.noConfusion Copy.noConfusion)
  · exact hfirst _ _
  · exact fun h => absurd h (hfirst _ _)
  · exact fun h => absurd h (hfirst _ _)
  · intro a b ha hadj _
    have hr := (has_start E r).1 ha
    subst hr
    rw [(start_eq_waiting E a a b).2 ⟨rfl, hadj⟩]
    exact Copy.noConfusion

section
omit [DecidableEq V]

theorem Ok.source_of_first (h : f.Ok E r) (hab : f a b = .first) : Has f r a := by
  apply h.source (b := b)
  rw [hab]
  exact Copy.noConfusion

theorem Ok.source_of_flying (h : f.Ok E r) (hab : f a b = .flying) : E.Adj a b ∧ Has f r a := by
  have hne : f a b ≠ .idle := by
    rw [hab]
    exact Copy.noConfusion
  exact ⟨h.adj hne, h.source hne⟩

theorem Ok.unheard (h : f.Ok E r) (hn : ¬Has f r n) (a : V) :
    f n a = .idle ∧ f a n ≠ .surplus ∧ f a n ≠ .refused ∧ f a n ≠ .first := by
  refine ⟨not_not.1 (fun hne => hn (h.source hne)), fun he => hn (h.target (.inl he)),
    fun he => hn (h.target (.inr he)),
    fun he => hn (.first he (h.source_of_first he))⟩

end

/-- The flood in which `b` has got its first copy, from `a`. -/
noncomputable def arrive (E : SimpleGraph V) (f : Flood V) (a b : V) : Flood V :=
  start E (f.set a b .first) b (some a)

theorem arrive_first (E : SimpleGraph V) (f : Flood V) (a b : V) :
    arrive E f a b a b = .first := by
  have hne : ¬(a = b ∧ E.Adj b b ∧ some b ≠ some a) := fun he => E.loopless.irrefl b he.2.1
  rw [arrive, start_of_not hne, set_self]

theorem arrive_of_ne (hn : x ≠ b) (hx : ¬(x = a ∧ y = b)) : arrive E f a b x y = f x y := by
  rw [arrive, start_of_not (fun he => hn he.1), set_of_ne hx]

theorem arrive_waiting (hadj : E.Adj b y) (hy : y ≠ a) : arrive E f a b b y = .waiting :=
  start_at hadj (fun he => hy (Option.some.inj he))

theorem arrive_other (hab : a ≠ b) (hy : ¬(E.Adj b y ∧ y ≠ a)) : arrive E f a b b y = f b y := by
  rw [arrive, start_of_not, set_of_ne]
  · exact fun he => hab he.1.symm
  · exact fun he => hy ⟨he.2.1, fun hya => he.2.2 (congrArg some hya)⟩

theorem arrive_eq_first (h : f.Ok E r) (hfl : f a b = .flying) (hn : ¬Has f r b) :
    arrive E f a b x y = .first ↔ x = a ∧ y = b ∨ f x y = .first := by
  by_cases hxy : x = a ∧ y = b
  · obtain ⟨rfl, rfl⟩ := hxy
    exact iff_of_true (arrive_first E f _ _) (.inl ⟨rfl, rfl⟩)
  · by_cases hx : x = b
    · subst hx
      have hidle := (h.unheard hn y).1
      have hab := (h.source_of_flying hfl).1.ne
      by_cases hy : E.Adj x y ∧ y ≠ a
      · rw [arrive_waiting hy.1 hy.2, hidle]
        simp [hxy]
      · rw [arrive_other hab hy, hidle]
        simp [hxy]
    · rw [arrive_of_ne hx hxy]
      simp [hxy]

theorem has_arrive (h : f.Ok E r) (hfl : f a b = .flying) (hn : ¬Has f r b) :
    Has (arrive E f a b) r n ↔ Has f r n ∨ n = b := by
  have ha := (h.source_of_flying hfl).2
  constructor
  · intro hh
    induction hh with
    | root => exact .inl .root
    | first hxy _ ih =>
      rcases (arrive_eq_first h hfl hn).1 hxy with ⟨_, rfl⟩ | hxy
      · exact .inr rfl
      · exact .inl (.first hxy (h.source_of_first hxy))
  · rintro (hh | rfl)
    · exact hh.mono (fun x y hxy => (arrive_eq_first h hfl hn).2 (.inr hxy))
    · refine .first (arrive_first E f _ _) (ha.mono ?_)
      exact fun x y hxy => (arrive_eq_first h hfl hn).2 (.inr hxy)

theorem Ok.arrive (h : f.Ok E r) (hfl : f a b = .flying) (hn : ¬Has f r b) :
    (arrive E f a b).Ok E r := by
  obtain ⟨hadj, ha⟩ := h.source_of_flying hfl
  have hfirst : ∀ {x y}, Flood.arrive E f a b x y = .first ↔ x = a ∧ y = b ∨ f x y = .first :=
    arrive_eq_first h hfl hn
  have hhas : ∀ {x}, Has (Flood.arrive E f a b) r x ↔ Has f r x ∨ x = b := has_arrive h hfl hn
  -- where the flood at `b` differs, the copy waits at `b` for a neighbour other than `a`
  have hold : ∀ x y, Flood.arrive E f a b x y ≠ .idle →
      x = b ∧ E.Adj b y ∧ y ≠ a ∧ Flood.arrive E f a b x y = .waiting ∨
        x = a ∧ y = b ∨ f x y ≠ .idle ∧ Flood.arrive E f a b x y = f x y := by
    intro x y hxy
    by_cases hx : x = b
    · subst hx
      by_cases hy : E.Adj x y ∧ y ≠ a
      · exact .inl ⟨rfl, hy.1, hy.2, arrive_waiting hy.1 hy.2⟩
      · rw [arrive_other hadj.ne hy] at hxy
        exact absurd (h.unheard hn y).1 hxy
    · by_cases hab : x = a ∧ y = b
      · exact .inr (.inl hab)
      · rw [arrive_of_ne hx hab] at hxy ⊢
        exact .inr (.inr ⟨hxy, rfl⟩)
  constructor
  · intro x y hxy
    rcases hold x y hxy with ⟨rfl, hy, _⟩ | ⟨rfl, rfl⟩ | ⟨hf, _⟩
    · exact hy
    · exact hadj
    · exact h.adj hf
  · intro x y hxy
    rw [hhas]
    rcases hold x y hxy with ⟨rfl, _⟩ | ⟨rfl, _⟩ | ⟨hf, _⟩
    · exact .inr rfl
    · exact .inl ha
    · exact .inl (h.source hf)
  · intro x y hxy
    rw [hhas]
    have hidle : Flood.arrive E f a b x y ≠ .idle := by
      intro he
      rw [he] at hxy
      rcases hxy with hxy | hxy
      · cases hxy
      · cases hxy
    rcases hold x y hidle with ⟨_, _, _, hw⟩ | ⟨_, rfl⟩ | ⟨_, heq⟩
    · rw [hw] at hxy
      rcases hxy with hxy | hxy
      · cases hxy
      · cases hxy
    · exact .inr rfl
    · rw [heq] at hxy
      exact .inl (h.target hxy)
  · intro x hx
    rcases hfirst.1 hx with ⟨_, rfl⟩ | hx
    · exact hn .root
    · exact h.root hx
  · intro x y x' hx hx'
    rcases hfirst.1 hx with ⟨rfl, rfl⟩ | hxy
    · rcases hfirst.1 hx' with ⟨rfl, _⟩ | hxy'
      · rfl
      · exact absurd hxy' (h.unheard hn x').2.2.2
    · rcases hfirst.1 hx' with ⟨rfl, rfl⟩ | hxy'
      · exact absurd hxy (h.unheard hn x).2.2.2
      · exact h.unique hxy hxy'
  · intro y x hyx
    rcases hfirst.1 hyx with ⟨rfl, rfl⟩ | hyx'
    · rw [arrive_other hadj.ne (fun he => he.2 rfl)]
      exact (h.unheard hn y).1
    · have hy : x ≠ b := by
        rintro rfl
        exact (h.unheard hn y).2.2.2 hyx'
      have hback := h.back hyx'
      rw [arrive_of_ne hy, hback]
      rintro ⟨rfl, rfl⟩
      rw [hfl] at hback
      cases hback
  · intro x y hx hxy hne'
    by_cases hxb : x = b
    · subst hxb
      have hya : y ≠ a := by
        rintro rfl
        exact hne' (hfirst.2 (.inl ⟨rfl, rfl⟩))
      rw [arrive_waiting hxy hya]
      exact Copy.noConfusion
    · by_cases hab : x = a ∧ y = b
      · obtain ⟨rfl, rfl⟩ := hab
        rw [arrive_first E f _ _]
        exact Copy.noConfusion
      · rw [arrive_of_ne hxb hab]
        exact h.complete ((hhas.1 hx).resolve_right hxb) hxy (fun hf => hne' (hfirst.2 (.inr hf)))

/-- A copy or a refusal of one that is under way. -/
def UnderWay (f : Flood V) (e : V × V × Copy) : Prop :=
  f e.1 e.2.1 = e.2.2 ∧ (e.2.2 = .flying ∨ e.2.2 = .surplus)

theorem underWay_set : UnderWay (f.set a b c) e ↔
    UnderWay f e ∧ e ≠ (a, b, f a b) ∨ (c = .flying ∨ c = .surplus) ∧ e = (a, b, c) := by
  obtain ⟨x, y, c'⟩ := e
  unfold UnderWay
  dsimp only
  by_cases hxy : x = a ∧ y = b
  · obtain ⟨rfl, rfl⟩ := hxy
    rw [set_self]
    constructor
    · rintro ⟨rfl, hc⟩
      exact .inr ⟨hc, rfl⟩
    · rintro (⟨⟨he, _⟩, hne⟩ | ⟨hc, he⟩)
      · exact absurd (by rw [he]) hne
      · cases he
        exact ⟨rfl, hc⟩
  · rw [set_of_ne hxy]
    constructor
    · intro h
      exact .inl ⟨h, fun he => hxy ⟨congrArg Prod.fst he, congrArg (fun e => e.2.1) he⟩⟩
    · rintro (⟨h, _⟩ | ⟨_, he⟩)
      · exact h
      · exact absurd ⟨congrArg Prod.fst he, congrArg (fun e => e.2.1) he⟩ hxy

theorem set_eq_waiting (hc : c ≠ .waiting) :
    f.set a b c x y = .waiting ↔ f x y = .waiting ∧ ¬(x = a ∧ y = b) := by
  by_cases hxy : x = a ∧ y = b
  · rw [hxy.1, hxy.2, set_self]
    simp [hc]
  · rw [set_of_ne hxy]
    simp [hxy]

theorem live_send (hf : f a b = .waiting) : Live (f.set a b .flying) n x ↔ Live f n x := by
  have hset : ∀ y z, (f.set a b .flying y z = .surplus ↔ f y z = .surplus) ∧
      (f.set a b .flying y z = .refused ↔ f y z = .refused) := by
    intro y z
    by_cases hyz : y = a ∧ z = b
    · rw [hyz.1, hyz.2, set_self, hf]
      simp
    · rw [set_of_ne hyz]
      exact ⟨Iff.rfl, Iff.rfl⟩
  unfold Live
  rw [Ne, Ne, Ne, (hset x n).1, (hset x n).2, (hset n x).2]

theorem live_refuse (hf : f a b = .flying) :
    Live (f.set a b .surplus) n x ↔ Live f n x ∧ ¬(n = b ∧ x = a) := by
  have href : ∀ y z, f.set a b .surplus y z = .refused ↔ f y z = .refused := by
    intro y z
    by_cases hyz : y = a ∧ z = b
    · rw [hyz.1, hyz.2, set_self, hf]
      simp
    · rw [set_of_ne hyz]
  unfold Live
  rw [Ne, Ne, Ne, href, href]
  by_cases hx : x = a ∧ n = b
  · rw [hx.1, hx.2, set_self]
    simp
  · rw [set_of_ne hx]
    have hx' : ¬(n = b ∧ x = a) := fun he => hx he.symm
    simp [hx']

theorem live_prune (hf : f a b = .surplus) :
    Live (f.set a b .refused) n x ↔ Live f n x ∧ ¬(n = a ∧ x = b) := by
  unfold Live
  by_cases hx : n = a ∧ x = b
  · rw [hx.1, hx.2, set_self]
    simp
  · rw [set_of_ne hx]
    by_cases hx' : x = a ∧ n = b
    · rw [hx'.1, hx'.2, set_self, hf]
      simp
    · rw [set_of_ne hx']
      simp [hx]

theorem Ok.arrive_old (h : f.Ok E r) (hfl : f a b = .flying) (hn : ¬Has f r b) (x y : V) :
    Flood.arrive E f a b x y = f x y ∨
      f x y = .idle ∧ Flood.arrive E f a b x y = .waiting ∨ x = a ∧ y = b := by
  by_cases hx : x = b
  · subst hx
    by_cases hy : E.Adj x y ∧ y ≠ a
    · exact .inr (.inl ⟨(h.unheard hn y).1, arrive_waiting hy.1 hy.2⟩)
    · exact .inl (arrive_other (h.source_of_flying hfl).1.ne hy)
  · by_cases hxy : x = a ∧ y = b
    · exact .inr (.inr hxy)
    · exact .inl (arrive_of_ne hx hxy)

theorem Ok.live_arrive (h : f.Ok E r) (hfl : f a b = .flying) (hn : ¬Has f r b) :
    Live (Flood.arrive E f a b) n x ↔ Live f n x := by
  have hsame : ∀ y z, (Flood.arrive E f a b y z = .surplus ↔ f y z = .surplus) ∧
      (Flood.arrive E f a b y z = .refused ↔ f y z = .refused) := by
    intro y z
    rcases h.arrive_old hfl hn y z with he | ⟨he, hw⟩ | ⟨rfl, rfl⟩
    · rw [he]
      exact ⟨Iff.rfl, Iff.rfl⟩
    · rw [he, hw]
      simp
    · rw [arrive_first, hfl]
      simp
  unfold Live
  rw [Ne, Ne, Ne, (hsame x n).1, (hsame x n).2, (hsame n x).2]

theorem Ok.underWay_arrive (h : f.Ok E r) (hfl : f a b = .flying) (hn : ¬Has f r b) :
    UnderWay (Flood.arrive E f a b) e ↔ UnderWay f e ∧ e ≠ (a, b, .flying) := by
  obtain ⟨x, y, c⟩ := e
  unfold UnderWay
  dsimp only
  by_cases hxy : x = a ∧ y = b
  · obtain ⟨rfl, rfl⟩ := hxy
    rw [arrive_first, hfl]
    constructor
    · rintro ⟨rfl, hc⟩
      exact absurd hc (by simp)
    · rintro ⟨⟨rfl, _⟩, hne⟩
      exact absurd rfl hne
  · have hne : (x, y, c) ≠ (a, b, .flying) :=
      fun he => hxy ⟨congrArg Prod.fst he, congrArg (fun e => e.2.1) he⟩
    rcases h.arrive_old hfl hn x y with he | ⟨he, hw⟩ | he
    · rw [he, and_iff_left hne]
    · rw [he, hw, and_iff_left hne]
      constructor
      · rintro ⟨rfl, hc⟩
        exact absurd hc (by simp)
      · rintro ⟨rfl, hc⟩
        exact absurd hc (by simp)
    · exact absurd he hxy

/-- At the vertex the copies for all neighbours but the sender now wait, at the others the same
as before. -/
theorem Ok.arrive_eq_waiting (h : f.Ok E r) (hfl : f a b = .flying) (hn : ¬Has f r b) :
    Flood.arrive E f a b x y = .waiting ↔ f x y = .waiting ∨ x = b ∧ E.Adj b y ∧ y ≠ a := by
  by_cases hx : x = b
  · subst hx
    by_cases hy : E.Adj x y ∧ y ≠ a
    · exact iff_of_true (arrive_waiting hy.1 hy.2) (.inr ⟨rfl, hy⟩)
    · rw [arrive_other (h.source_of_flying hfl).1.ne hy]
      simp [hy]
  · by_cases hxy : x = a ∧ y = b
    · rw [hxy.1, hxy.2, arrive_first, hfl]
      simp [(h.source_of_flying hfl).1.ne]
    · rw [arrive_of_ne hx hxy]
      simp [hx]

section
omit [DecidableEq V]

theorem Ok.has_all (h : f.Ok E r) (hE : E.Connected) (ho : f.Over) (n : V) : Has f r n := by
  obtain ⟨w⟩ := hE.preconnected n r
  induction w with
  | nil => exact .root
  | @cons n a _ hadj _ ih =>
    have ha := ih h
    by_cases hback : f n a = .first
    · exact h.source_of_first hback
    · have hne := h.complete ha hadj.symm hback
      cases hc : f a n with
      | idle => exact absurd hc hne
      | waiting => exact absurd hc (ho a n).1
      | flying => exact absurd hc (ho a n).2.1
      | first => exact .first hc ha
      | surplus => exact absurd hc (ho a n).2.2
      | refused => exact h.target (.inr hc)

end

/-- The links on which first copies have come. -/
def tree (f : Flood V) : SimpleGraph V := SimpleGraph.fromRel (fun a b => f a b = .first)

section
omit [DecidableEq V]

theorem Ok.tree_adj (h : f.Ok E r) : (tree f).Adj a b ↔ f a b = .first ∨ f b a = .first := by
  rw [tree, SimpleGraph.fromRel_adj]
  refine ⟨fun hab => hab.2, fun hab => ⟨?_, hab⟩⟩
  rintro rfl
  have hf := hab.elim id id
  have hback := h.back hf
  rw [hf] at hback
  cases hback

theorem Ok.tree_le (h : f.Ok E r) : tree f ≤ E := by
  intro a b hab
  rcases h.tree_adj.1 hab with hf | hf
  · apply h.adj
    rw [hf]
    exact Copy.noConfusion
  · apply SimpleGraph.Adj.symm
    apply h.adj
    rw [hf]
    exact Copy.noConfusion

theorem Ok.reachable (h : f.Ok E r) (hn : Has f r n) : (tree f).Reachable r n := by
  induction hn with
  | root => exact .refl r
  | first hab _ ih => exact ih.trans (h.tree_adj.2 (.inl hab)).reachable

theorem Ok.tree_connected (h : f.Ok E r) (hE : E.Connected) (ho : f.Over) :
    (tree f).Connected := by
  have := hE.nonempty
  refine ⟨fun a b => ?_⟩
  exact (h.reachable (h.has_all hE ho a)).symm.trans (h.reachable (h.has_all hE ho b))

theorem Ok.refused (h : f.Ok E r) (hE : E.Connected) (ho : f.Over) (hadj : E.Adj a b)
    (ht : ¬(tree f).Adj a b) : f a b = .refused := by
  rw [h.tree_adj, not_or] at ht
  have hne := h.complete (h.has_all hE ho a) hadj ht.2
  cases hc : f a b with
  | idle => exact absurd hc hne
  | waiting => exact absurd hc (ho a b).1
  | flying => exact absurd hc (ho a b).2.1
  | first => exact absurd hc ht.1
  | surplus => exact absurd hc (ho a b).2.2
  | refused => rfl

/-- When the flood is over, the links that are live in either direction are those of the tree. -/
theorem Ok.live_iff (h : f.Ok E r) (hE : E.Connected) (ho : f.Over) :
    E.Adj n a ∧ Live f n a ↔ (tree f).Adj n a := by
  constructor
  · rintro ⟨hadj, _, _, hlive⟩
    by_contra ht
    exact hlive (h.refused hE ho hadj ht)
  · intro ht
    refine ⟨h.tree_le ht, ?_⟩
    rcases h.tree_adj.1 ht with hf | hf
    · simp [Live, hf, h.back hf]
    · simp [Live, hf, h.back hf]

end

section Count

variable [Fintype V]

/-- The links on which first copies have come, from source to target. -/
def firsts (f : Flood V) : Finset (V × V) := Finset.univ.filter (fun q => f q.1 q.2 = .first)

section
omit [DecidableEq V]

theorem mem_firsts : q ∈ firsts f ↔ f q.1 q.2 = .first := by
  rw [firsts, Finset.mem_filter]
  exact and_iff_right (Finset.mem_univ q)

end

/-- Each vertex but the root has one first copy. -/
theorem Ok.card_firsts (h : f.Ok E r) (hE : E.Connected) (ho : f.Over) :
    (firsts f).card + 1 = Fintype.card V := by
  have himage : (firsts f).image Prod.snd = Finset.univ.erase r := by
    ext n
    rw [Finset.mem_image, Finset.mem_erase]
    constructor
    · rintro ⟨q, hq, rfl⟩
      refine ⟨?_, Finset.mem_univ _⟩
      rintro he
      apply h.root (a := q.1)
      rw [← he]
      exact mem_firsts.1 hq
    · rintro ⟨hn, _⟩
      obtain ⟨a, ha, _⟩ := (h.has_all hE ho n).cases_ne hn
      exact ⟨(a, n), mem_firsts.2 ha, rfl⟩
  have hinj : Set.InjOn Prod.snd (firsts f : Set (V × V)) := by
    intro p hp q hq he
    have hp := mem_firsts.1 hp
    rw [he] at hp
    exact Prod.ext (h.unique hp (mem_firsts.1 hq)) he
  rw [← Finset.card_image_of_injOn hinj, himage, Finset.card_erase_add_one (Finset.mem_univ r)]
  rfl

section
omit [DecidableEq V]

theorem Ok.card_edges (h : f.Ok E r) : Nat.card (tree f).edgeSet = (firsts f).card := by
  let edge : firsts f → (tree f).edgeSet := fun q =>
    ⟨s(q.1.1, q.1.2), h.tree_adj.2 (.inl (mem_firsts.1 q.2))⟩
  have hedge : Function.Bijective edge := by
    constructor
    · rintro ⟨⟨a, b⟩, hab⟩ ⟨⟨c, d⟩, hcd⟩ he
      rcases Sym2.eq_iff.1 (Subtype.mk.inj he) with ⟨rfl, rfl⟩ | ⟨rfl, rfl⟩
      · rfl
      · have hf : f a b = .first := mem_firsts.1 hab
        rw [h.back (mem_firsts.1 hcd)] at hf
        cases hf
    · rintro ⟨e, he⟩
      induction e using Sym2.ind with
      | _ a b =>
        rcases h.tree_adj.1 he with hf | hf
        · exact ⟨⟨(a, b), mem_firsts.2 hf⟩, rfl⟩
        · exact ⟨⟨(b, a), mem_firsts.2 hf⟩, Subtype.ext Sym2.eq_swap⟩
  rw [← Nat.card_congr (Equiv.ofBijective edge hedge), Nat.card_eq_fintype_card,
    Fintype.card_coe]

end

theorem Ok.tree_isTree (h : f.Ok E r) (hE : E.Connected) (ho : f.Over) : (tree f).IsTree := by
  rw [SimpleGraph.isTree_iff_connected_and_card, h.card_edges, Nat.card_eq_fintype_card]
  exact ⟨h.tree_connected hE ho, h.card_firsts hE ho⟩

section
omit [DecidableEq V] [Fintype V]

theorem Ok.tree_eq (h : f.Ok E r) (hE : E.IsTree) (ho : f.Over) : tree f = E :=
  le_antisymm h.tree_le
    ((SimpleGraph.isTree_iff_minimal_connected.1 hE).2 (h.tree_connected hE.connected ho) h.tree_le)

end

/-- How many copies were sent. -/
def sends (f : Flood V) : ℕ := (Finset.univ.filter (fun q : V × V => (f q.1 q.2).sent)).card

section
omit [DecidableEq V]

theorem sends_congr {g : Flood V} (h : ∀ a b, (g a b).sent = (f a b).sent) : sends g = sends f := by
  unfold sends
  simp only [h]

end

theorem sends_start (E : SimpleGraph V) (r : V) : sends (start E quiet r none) = 0 := by
  rw [sends, Finset.card_eq_zero, Finset.filter_eq_empty_iff]
  intro q _
  rcases start_quiet E r q.1 q.2 with ⟨_, _, he⟩ | ⟨_, he⟩
  · rw [he]
    exact Bool.noConfusion
  · rw [he]
    exact Bool.noConfusion

theorem sends_set (h : (f a b).sent = c.sent) : sends (f.set a b c) = sends f := by
  apply sends_congr
  intro x y
  by_cases hxy : x = a ∧ y = b
  · obtain ⟨rfl, rfl⟩ := hxy
    rw [set_self, h]
  · rw [set_of_ne hxy]

theorem sends_send (h : f a b = .waiting) : sends (f.set a b .flying) = sends f + 1 := by
  have hfilter : Finset.univ.filter (fun q : V × V => (f.set a b .flying q.1 q.2).sent) =
      insert (a, b) (Finset.univ.filter (fun q : V × V => (f q.1 q.2).sent)) := by
    ext ⟨x, y⟩
    simp only [Finset.mem_filter, Finset.mem_univ, true_and, Finset.mem_insert, Prod.mk.injEq]
    by_cases hxy : x = a ∧ y = b
    · obtain ⟨rfl, rfl⟩ := hxy
      rw [set_self]
      exact iff_of_true rfl (.inl ⟨rfl, rfl⟩)
    · rw [set_of_ne hxy, or_iff_right hxy]
  rw [sends, hfilter, Finset.card_insert_of_notMem, sends]
  rw [Finset.mem_filter, h]
  exact fun he => Bool.noConfusion he.2

theorem Ok.sends_tree (h : f.Ok E r) (hE : E.IsTree) (ho : f.Over) :
    sends f + 1 = Fintype.card V := by
  have hsent : sends f = (firsts f).card := by
    rw [sends, firsts]
    congr 1
    ext ⟨a, b⟩
    simp only [Finset.mem_filter, Finset.mem_univ, true_and]
    cases hc : f a b with
    | idle => simp [Copy.sent]
    | waiting => simp [Copy.sent]
    | flying => exact absurd hc (ho a b).2.1
    | first => simp [Copy.sent]
    | surplus => exact absurd hc (ho a b).2.2
    | refused =>
      -- the link is one of the tree, so a copy came first on it, and the other way none was sent
      have hadj : E.Adj a b := by
        apply h.adj
        rw [hc]
        exact Copy.noConfusion
      rw [← h.tree_eq hE ho, h.tree_adj, hc] at hadj
      rcases hadj with he | hf
      · cases he
      · rw [h.back hf] at hc
        cases hc
  rw [hsent]
  exact h.card_firsts hE.connected ho

/-- How far the copies of a flood have still to go. -/
def work (f : Flood V) : ℕ := ∑ q : V × V, (4 - (f q.1 q.2).stage)

theorem stage_le (c : Copy) : c.stage ≤ 4 := by
  cases c with
  | idle => decide
  | waiting => decide
  | flying => decide
  | first => decide
  | surplus => decide
  | refused => decide

section
omit [DecidableEq V]

theorem work_lt {g : Flood V} (h : ∀ a b, (f a b).stage ≤ (g a b).stage)
    (hlt : (f a b).stage < (g a b).stage) : work g < work f := by
  apply Finset.sum_lt_sum
  · exact fun q _ => Nat.sub_le_sub_left (h q.1 q.2) 4
  · refine ⟨(a, b), Finset.mem_univ _, ?_⟩
    have hle := stage_le (g a b)
    dsimp only
    omega

end

theorem work_set_lt (h : (f a b).stage < c.stage) : work (f.set a b c) < work f := by
  apply work_lt (a := a) (b := b)
  · intro x y
    by_cases hxy : x = a ∧ y = b
    · obtain ⟨rfl, rfl⟩ := hxy
      rw [set_self]
      exact h.le
    · rw [set_of_ne hxy]
  · rw [set_self]
    exact h

theorem Ok.work_arrive_lt (h : f.Ok E r) (hfl : f a b = .flying) (hn : ¬Has f r b) :
    work (Flood.arrive E f a b) < work f := by
  apply work_lt (a := a) (b := b)
  · intro x y
    rcases h.arrive_old hfl hn x y with he | ⟨he, hw⟩ | ⟨rfl, rfl⟩
    · rw [he]
    · rw [he]
      exact Nat.zero_le _
    · rw [arrive_first, hfl]
      decide
  · rw [arrive_first, hfl]
    decide

theorem Ok.sends_arrive (h : f.Ok E r) (hfl : f a b = .flying) (hn : ¬Has f r b) :
    sends (Flood.arrive E f a b) = sends f := by
  apply sends_congr
  intro x y
  rcases h.arrive_old hfl hn x y with he | ⟨he, hw⟩ | ⟨rfl, rfl⟩
  · rw [he]
  · rw [he, hw]
    rfl
  · rw [arrive_first, hfl]
    rfl

end Count

end Flood

end Suprime
