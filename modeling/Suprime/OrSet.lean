import Mathlib.Data.List.Lex
import Mathlib.Data.Finset.Image
import Suprime.JoinLoop
import Suprime.PyValue
import Suprime.Replicas

namespace Suprime
set_option autoImplicit true

/-- `list(s)`: the order in which a set of strings is iterated is left open. -/
class SetOrder where
  list : Finset PyStr → List PyStr
  toFinset_list : ∀ s, (list s).toFinset = s
  nodup_list : ∀ s, (list s).Nodup

/-- `repr` of the elements of a set. -/
class HasRepr (ε : Type) where
  repr : ε → Text

structure ORSet (ε : Type) where
  nodeId : PyStr
  counter : ℕ
  adds : Dict ε (Finset PyStr)
  removed : Finset PyStr

structure ORSet.Digest (ε : Type) where
  adds : Dict Text (ε × List PyStr)
  removed : List PyStr

inductive SetOp (ε : Type)
  | add (element : ε)
  | remove (element : ε)
  deriving DecidableEq

/-- `f"{node_id}:{counter}"` -/
def tagText (n : PyStr) (k : ℕ) : PyStr := n ++ pyStr (':' :: Nat.toDigits 10 k)

/-- The tags that a dict has for an element, none when it is absent. -/
def tagsIn [DecidableEq ε] (d : Dict ε (Finset PyStr)) (e : ε) : Finset PyStr := (d.get e).getD ∅

namespace ORSet

variable {ε : Type} [DecidableEq ε]

def init (n : PyStr) : ORSet ε := ⟨n, 0, .empty, ∅⟩

def tags (c : ORSet ε) (e : ε) : Finset PyStr := tagsIn c.adds e

def freshTag (c : ORSet ε) : PyStr × ORSet ε :=
  (tagText c.nodeId (c.counter + 1), { c with counter := c.counter + 1 })

def add (c : ORSet ε) (element : ε) : ORSet ε :=
  { c.freshTag.2 with adds := c.adds.set element (insert c.freshTag.1 (c.tags element)) }

def remove (c : ORSet ε) (element : ε) : ORSet ε :=
  { c with removed := c.removed ∪ c.tags element }

def contains (c : ORSet ε) (element : ε) : Bool :=
  match c.adds.get element with
  | none => false
  | some tags => decide (tags ≠ ∅) && !decide (tags ⊆ c.removed)

def elements (c : ORSet ε) : Finset ε :=
  ((c.adds.items.filter (fun p => ¬ p.2 ⊆ c.removed)).map Prod.fst).toFinset

/-- One turn of the loop of `merge`. -/
def mergeTags (acc : Dict ε (Finset PyStr) × Bool) (p : ε × Finset PyStr) :
    Dict ε (Finset PyStr) × Bool :=
  let adds := acc.1.setDefault p.1 ∅
  let cur := tagsIn adds p.1
  if ¬ p.2 ⊆ cur then (adds.set p.1 (cur ∪ p.2), true) else (adds, acc.2)

def merge (c other : ORSet ε) : ORSet ε × Bool :=
  let acc := other.adds.items.foldl mergeTags (c.adds, false)
  if ¬ other.removed ⊆ c.removed then
    ({ c with adds := acc.1, removed := c.removed ∪ other.removed }, true)
  else ({ c with adds := acc.1 }, acc.2)

variable [SetOrder] [HasRepr ε]

/-- Elements with the same `repr` share an entry of the digest. -/
def digest (c : ORSet ε) : Digest ε where
  adds := .ofList (c.adds.items.map (fun p => (HasRepr.repr p.1, p.1, SetOrder.list p.2)))
  removed := SetOrder.list c.removed

/-- The temporary peer that a digest stands for. -/
def ofDigest (d : Digest ε) : ORSet ε where
  nodeId := []
  counter := 0
  adds := .ofList (d.adds.values.map (fun v => (v.1, v.2.toFinset)))
  removed := d.removed.toFinset

def applyDigest (c : ORSet ε) (d : Digest ε) : ORSet ε × Bool := c.merge (ofDigest d)

/-- The event of an `add` keeps the tag that it made. -/
def perform (c : ORSet ε) : SetOp ε → Option (ORSet ε × Option PyStr)
  | .add element => some (c.add element, some c.freshTag.1)
  | .remove element => some (c.remove element, none)

def replicaType : ReplicaType PyStr (SetOp ε) (Option PyStr) (ORSet ε) where
  init := init
  perform := perform
  merge c other := (c.merge other).1
  absorb c other := (c.applyDigest other.digest).1

end ORSet

theorem tagText_injective {n n' : PyStr} {k k' : ℕ} (h : tagText n k = tagText n' k') :
    n = n' ∧ k = k' := by
  have hdigits : ∀ k, pyChar ':' ∉ pyStr (Nat.toDigits 10 k) := by
    intro k hmem
    obtain ⟨c, hc, he⟩ := List.mem_map.1 hmem
    have hdigit := Nat.isDigit_of_mem_toDigits (by decide) (by decide) hc
    rw [pyChar_injective he] at hdigit
    cases hdigit
  obtain ⟨hn, hdigit⟩ := cut_unique_right (hdigits k) (hdigits k') h
  exact ⟨hn, toDigits_injective (pyChar_injective.list_map hdigit)⟩

namespace ORSet

variable {ε : Type} [DecidableEq ε]

theorem tags_add (c : ORSet ε) (x y : ε) : (c.add x).tags y =
    if y = x then insert (tagText c.nodeId (c.counter + 1)) (c.tags x) else c.tags y := by
  unfold add tags tagsIn
  rw [Dict.get_set]
  by_cases hy : y = x
  · rw [if_pos hy, if_pos hy]
    rfl
  · rw [if_neg hy, if_neg hy]

theorem tagsIn_mergeTags (acc : Dict ε (Finset PyStr) × Bool) (p : ε × Finset PyStr) (x : ε) :
    tagsIn (mergeTags acc p).1 x = if x = p.1 then tagsIn acc.1 x ∪ p.2 else tagsIn acc.1 x := by
  have hdefault : ∀ y, tagsIn (acc.1.setDefault p.1 ∅) y = tagsIn acc.1 y :=
    fun y => acc.1.getD_setDefault p.1 y ∅
  unfold mergeTags
  dsimp only
  by_cases hsub : p.2 ⊆ tagsIn (acc.1.setDefault p.1 ∅) p.1
  · rw [if_neg (not_not.2 hsub), hdefault]
    by_cases hx : x = p.1
    · subst hx
      rw [hdefault] at hsub
      rw [if_pos rfl, Finset.union_eq_left.2 hsub]
    · rw [if_neg hx]
  · rw [if_pos hsub]
    by_cases hx : x = p.1
    · subst hx
      rw [if_pos rfl, tagsIn, Dict.get_set_self, Option.getD_some]
      exact congrArg (· ∪ p.2) (hdefault p.1)
    · rw [if_neg hx, tagsIn, Dict.get_set_ne _ _ hx]
      exact hdefault x

theorem joinLoop : JoinLoop (mergeTags (ε := ε)) tagsIn (· ∪ ·) where
  view_self acc p := by rw [tagsIn_mergeTags, if_pos rfl]
  view_ne acc p k hk := by rw [tagsIn_mergeTags, if_neg hk]
  flag acc p := by
    have hdefault : tagsIn (acc.1.setDefault p.1 ∅) p.1 = tagsIn acc.1 p.1 :=
      acc.1.getD_setDefault p.1 p.1 ∅
    unfold mergeTags
    dsimp only
    rw [hdefault, ne_eq, Finset.union_eq_left]
    by_cases hsub : p.2 ⊆ tagsIn acc.1 p.1
    · rw [if_neg (not_not.2 hsub)]
      simp [hsub]
    · rw [if_pos hsub]
      exact iff_of_true rfl (.inr hsub)

theorem adds_merge (c other : ORSet ε) :
    (c.merge other).1.adds = (other.adds.items.foldl mergeTags (c.adds, false)).1 := by
  unfold merge
  dsimp only
  by_cases hsub : other.removed ⊆ c.removed
  · rw [if_neg (not_not.2 hsub)]
  · rw [if_pos hsub]

theorem tags_merge (c other : ORSet ε) (x : ε) :
    (c.merge other).1.tags x = c.tags x ∪ other.tags x := by
  rw [tags, adds_merge, joinLoop.view_foldl other.adds.nodup]
  have hother : other.tags x = (other.adds.items.lookup x).getD ∅ := rfl
  rw [hother]
  cases other.adds.items.lookup x with
  | none => exact (Finset.union_empty _).symm
  | some t => rfl

theorem removed_merge (c other : ORSet ε) :
    (c.merge other).1.removed = c.removed ∪ other.removed := by
  unfold merge
  dsimp only
  by_cases hsub : other.removed ⊆ c.removed
  · rw [if_neg (not_not.2 hsub), Finset.union_eq_left.2 hsub]
  · rw [if_pos hsub]

theorem fields_merge (c other : ORSet ε) :
    (c.merge other).1.nodeId = c.nodeId ∧ (c.merge other).1.counter = c.counter := by
  unfold merge
  dsimp only
  by_cases hsub : other.removed ⊆ c.removed
  · rw [if_neg (not_not.2 hsub)]
    exact ⟨rfl, rfl⟩
  · rw [if_pos hsub]
    exact ⟨rfl, rfl⟩

theorem mem_elements (c : ORSet ε) (x : ε) : x ∈ c.elements ↔ ¬ c.tags x ⊆ c.removed := by
  rw [elements, List.mem_toFinset, List.mem_map]
  constructor
  · rintro ⟨⟨k, t⟩, hp, rfl⟩
    rw [List.mem_filter, decide_eq_true_eq] at hp
    rw [tags, tagsIn, Dict.mem_items.1 hp.1, Option.getD_some]
    exact hp.2
  · intro h
    cases hx : c.adds.get x with
    | none =>
      rw [tags, tagsIn, hx] at h
      exact absurd (Finset.empty_subset _) h
    | some t =>
      rw [tags, tagsIn, hx, Option.getD_some] at h
      refine ⟨(x, t), List.mem_filter.2 ⟨Dict.mem_items.2 hx, ?_⟩, rfl⟩
      exact decide_eq_true h

theorem contains_iff (c : ORSet ε) (x : ε) : c.contains x = true ↔ x ∈ c.elements := by
  rw [mem_elements, contains, tags, tagsIn]
  cases c.adds.get x with
  | none => simp
  | some t =>
    simp only [Bool.and_eq_true, decide_eq_true_eq, Bool.not_eq_true', decide_eq_false_iff_not,
      Option.getD_some, and_iff_right_iff_imp]
    intro hsub he
    rw [he] at hsub
    exact hsub (Finset.empty_subset _)

/-- No two elements share an entry of the digest. -/
def ReprDistinct [HasRepr ε] (c : ORSet ε) : Prop := (c.adds.keys.map HasRepr.repr).Nodup

instance [HasRepr ε] : DecidablePred (ReprDistinct : ORSet ε → Prop) :=
  fun c => inferInstanceAs (Decidable (c.adds.keys.map HasRepr.repr).Nodup)

theorem ofDigest_digest [SetOrder] [HasRepr ε] {c : ORSet ε} (h : c.ReprDistinct) :
    ofDigest c.digest = ⟨[], 0, c.adds, c.removed⟩ := by
  have hkeys : ((c.adds.items.map (fun p => (HasRepr.repr p.1, p.1, SetOrder.list p.2))).map
      Prod.fst).Nodup := by
    rw [ReprDistinct, Dict.keys, List.map_map] at h
    rw [List.map_map]
    exact h
  have hadds : c.digest.adds.values.map (fun v => (v.1, v.2.toFinset)) = c.adds.items := by
    rw [digest, Dict.values, Dict.items_ofList_self hkeys, List.map_map, List.map_map]
    apply List.map_id''
    intro p
    simp only [Function.comp_apply, SetOrder.toFinset_list]
  rw [ofDigest, hadds, Dict.ofList_items]
  congr 1
  exact SetOrder.toFinset_list _

/-- A digest stands for the state that it was taken of, as far as `merge` reads this. -/
theorem applyDigest_digest [SetOrder] [HasRepr ε] (c : ORSet ε) {d : ORSet ε}
    (h : d.ReprDistinct) : c.applyDigest d.digest = c.merge d := by
  rw [applyDigest, ofDigest_digest h]
  rfl

end ORSet

end Suprime
