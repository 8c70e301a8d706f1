import Mathlib.Data.List.Nodup
import Mathlib.Data.List.Induction

namespace Suprime
set_option autoImplicit true

theorem cut_unique {a : β} {x y s t : List β} (hx : a ∉ x) (hy : a ∉ y)
    (h : x ++ a :: s = y ++ a :: t) : x = y ∧ s = t := by
  induction x generalizing y with
  | nil =>
    cases y with
    | nil => exact ⟨rfl, (List.cons.inj h).2⟩
    | cons b y =>
      have hab : a = b := (List.cons.inj h).1
      rw [hab] at hy
      exact absurd List.mem_cons_self hy
  | cons b x ih =>
    cases y with
    | nil =>
      have hba : b = a := (List.cons.inj h).1
      rw [hba] at hx
      exact absurd List.mem_cons_self hx
    | cons c y =>
      obtain ⟨hbc, hrest⟩ := List.cons.inj h
      obtain ⟨hxy, hst⟩ := ih (fun hm => hx (List.mem_cons_of_mem _ hm))
        (fun hm => hy (List.mem_cons_of_mem _ hm)) hrest
      exact ⟨by rw [hbc, hxy], hst⟩

theorem cut_unique_right {a : β} {x y s t : List β} (hs : a ∉ s) (ht : a ∉ t)
    (h : x ++ a :: s = y ++ a :: t) : x = y ∧ s = t := by
  have hrev := congrArg List.reverse h
  simp only [List.reverse_append, List.reverse_cons, List.append_assoc,
    List.singleton_append] at hrev
  obtain ⟨hst, hxy⟩ := cut_unique (fun hm => hs (List.mem_reverse.1 hm))
    (fun hm => ht (List.mem_reverse.1 hm)) hrev
  exact ⟨List.reverse_injective hxy, List.reverse_injective hst⟩

/-- Assignment to a key of an association list keeps the position of a present key. -/
def assocSet [DecidableEq κ] (k : κ) (v : α) : List (κ × α) → List (κ × α)
  | [] => [(k, v)]
  | (k', v') :: l => if k' = k then (k, v) :: l else (k', v') :: assocSet k v l

theorem lookup_cons_ne [DecidableEq κ] {k a : κ} (h : k ≠ a) (b : α) (l : List (κ × α)) :
    ((a, b) :: l).lookup k = l.lookup k := by
  have hb : (k == a) = false := beq_eq_false_iff_ne.2 h
  rw [List.lookup_cons, hb]

theorem lookup_assocSet [DecidableEq κ] (k k' : κ) (v : α) (l : List (κ × α)) :
    (assocSet k v l).lookup k' = if k' = k then some v else l.lookup k' := by
  induction l with
  | nil =>
    by_cases hk : k' = k
    · simp [assocSet, hk]
    · rw [assocSet, lookup_cons_ne hk, if_neg hk]
  | cons p l ih =>
    obtain ⟨a, b⟩ := p
    by_cases ha : a = k
    · subst ha
      by_cases hk : k' = a
      · simp [assocSet, hk]
      · simp [assocSet, lookup_cons_ne hk, hk]
    · by_cases hk : k' = a
      · subst hk
        simp [assocSet, ha]
      · simp [assocSet, ha, lookup_cons_ne hk, ih]

theorem keys_assocSet_of_mem [DecidableEq κ] {k : κ} {v : α} {l : List (κ × α)}
    (h : k ∈ l.map Prod.fst) : (assocSet k v l).map Prod.fst = l.map Prod.fst := by
  induction l with
  | nil => simp at h
  | cons p l ih =>
    obtain ⟨a, b⟩ := p
    by_cases ha : a = k
    · simp [assocSet, ha]
    · have hl : k ∈ l.map Prod.fst := by
        rcases List.mem_cons.1 h with he | hl
        · exact absurd he.symm ha
        · exact hl
      simp [assocSet, ha, ih hl]

theorem assocSet_of_not_mem [DecidableEq κ] {k : κ} {v : α} {l : List (κ × α)}
    (h : k ∉ l.map Prod.fst) : assocSet k v l = l ++ [(k, v)] := by
  induction l with
  | nil => rfl
  | cons p l ih =>
    obtain ⟨a, b⟩ := p
    simp only [List.map_cons, List.mem_cons, not_or] at h
    simp [assocSet, Ne.symm h.1, ih h.2]

theorem nodup_assocSet [DecidableEq κ] {k : κ} {v : α} {l : List (κ × α)}
    (h : (l.map Prod.fst).Nodup) : ((assocSet k v l).map Prod.fst).Nodup := by
  by_cases hk : k ∈ l.map Prod.fst
  · rw [keys_assocSet_of_mem hk]
    exact h
  · rw [assocSet_of_not_mem hk, List.map_append]
    exact List.Nodup.append h (List.nodup_singleton k) (by simpa using hk)

theorem mem_iff_lookup [DecidableEq κ] {k : κ} {v : α} {l : List (κ × α)}
    (h : (l.map Prod.fst).Nodup) : (k, v) ∈ l ↔ l.lookup k = some v := by
  induction l with
  | nil => simp
  | cons p l ih =>
    obtain ⟨a, b⟩ := p
    simp only [List.map_cons, List.nodup_cons] at h
    by_cases hk : k = a
    · subst hk
      have hn : (k, v) ∉ l := fun hm => h.1 (List.mem_map_of_mem hm)
      simp [hn, eq_comm]
    · simp [lookup_cons_ne hk, hk, ih h.2]

theorem lookup_eq_none_of_not_mem [DecidableEq κ] {k : κ} {l : List (κ × α)}
    (h : k ∉ l.map Prod.fst) : l.lookup k = none := by
  rw [List.lookup_eq_none_iff]
  intro q hq
  rw [bne_iff_ne]
  exact fun he => h (List.mem_map.2 ⟨q, hq, he.symm⟩)

/-- A Python dict: its pairs in insertion order, every key once. -/
structure Dict (κ : Type u) (α : Type v) where
  items : List (κ × α)
  nodup : (items.map Prod.fst).Nodup

namespace Dict

def empty : Dict κ α := ⟨[], List.nodup_nil⟩

variable [DecidableEq κ]

def get (d : Dict κ α) (k : κ) : Option α := d.items.lookup k

def set (d : Dict κ α) (k : κ) (v : α) : Dict κ α :=
  ⟨assocSet k v d.items, nodup_assocSet d.nodup⟩

def setDefault (d : Dict κ α) (k : κ) (v : α) : Dict κ α :=
  match d.get k with
  | some _ => d
  | none => d.set k v

def erase (d : Dict κ α) (k : κ) : Dict κ α :=
  ⟨d.items.filter (fun p => p.1 ≠ k), (List.filter_sublist.map _).nodup d.nodup⟩

def keys (d : Dict κ α) : List κ := d.items.map Prod.fst

def map (f : α → β) (d : Dict κ α) : Dict κ β :=
  ⟨d.items.map (fun p => (p.1, f p.2)), by simpa [Function.comp_def] using d.nodup⟩

def values (d : Dict κ α) : List α := d.items.map Prod.snd

@[simp] theorem get_empty (k : κ) : (empty : Dict κ α).get k = none := rfl

theorem get_set (d : Dict κ α) (k k' : κ) (v : α) :
    (d.set k v).get k' = if k' = k then some v else d.get k' :=
  lookup_assocSet k k' v d.items

@[simp] theorem get_set_self (d : Dict κ α) (k : κ) (v : α) : (d.set k v).get k = some v := by
  rw [get_set, if_pos rfl]

theorem get_set_ne (d : Dict κ α) {k k' : κ} (v : α) (h : k' ≠ k) :
    (d.set k v).get k' = d.get k' := by
  rw [get_set, if_neg h]

theorem set_of_get {d : Dict κ α} {k : κ} {v : α} (h : d.get k = some v) : d.set k v = d := by
  have hitems : ∀ l : List (κ × α), l.lookup k = some v → assocSet k v l = l := by
    intro l hl
    induction l with
    | nil => cases hl
    | cons p l ih =>
      obtain ⟨a, b⟩ := p
      rw [assocSet]
      by_cases ha : a = k
      · subst ha
        rw [List.lookup_cons_self] at hl
        cases hl
        exact if_pos rfl
      · rw [lookup_cons_ne (Ne.symm ha)] at hl
        rw [if_neg ha, ih hl]
  obtain ⟨items, hnd⟩ := d
  unfold set
  congr 1
  exact hitems items h

theorem getD_setDefault (d : Dict κ α) (k k' : κ) (v : α) :
    ((d.setDefault k v).get k').getD v = (d.get k').getD v := by
  cases hk : d.get k with
  | some _ => simp only [setDefault, hk]
  | none =>
    simp only [setDefault, hk, get_set]
    by_cases h : k' = k
    · rw [if_pos h, h, hk, Option.getD_some, Option.getD_none]
    · rw [if_neg h]

theorem mem_items {d : Dict κ α} {k : κ} {v : α} : (k, v) ∈ d.items ↔ d.get k = some v :=
  mem_iff_lookup d.nodup

theorem get_erase (d : Dict κ α) (k k' : κ) :
    (d.erase k).get k' = if k' = k then none else d.get k' := by
  apply Option.ext
  intro v
  rw [← mem_items]
  by_cases hk : k' = k
  · simp [erase, hk]
  · simp [erase, hk, mem_items]

theorem get_foldl_erase (d : Dict κ α) (ks : List κ) (k : κ) :
    (ks.foldl erase d).get k = if k ∈ ks then none else d.get k := by
  induction ks generalizing d with
  | nil => rfl
  | cons key ks ih =>
    rw [List.foldl_cons, ih, get_erase]
    by_cases hk : k = key
    · simp [hk]
    · simp [hk]

theorem mem_keys {d : Dict κ α} {k : κ} : k ∈ d.keys ↔ ∃ v, d.get k = some v := by
  simp only [keys, List.mem_map, Prod.exists, exists_and_right, exists_eq_right, mem_items]

theorem get_eq_none_iff {d : Dict κ α} {k : κ} : d.get k = none ↔ k ∉ d.keys := by
  rw [mem_keys, Option.eq_none_iff_forall_ne_some, not_exists]

theorem get_map (d : Dict κ α) (f : α → β) (k : κ) : (d.map f).get k = (d.get k).map f := by
  apply Option.ext
  intro v
  rw [← Option.mem_def, Option.mem_def, ← mem_items, Option.map_eq_some_iff]
  constructor
  · intro h
    obtain ⟨p, hp, hpv⟩ := List.mem_map.1 h
    cases hpv
    exact ⟨p.2, mem_items.1 hp, rfl⟩
  · intro h
    obtain ⟨w, hw, hv⟩ := h
    exact List.mem_map.2 ⟨(k, w), mem_items.2 hw, by rw [hv]⟩

theorem map_assocSet (f : α → β) (k : κ) (v : α) (l : List (κ × α)) :
    (assocSet k v l).map (fun p => (p.1, f p.2)) =
      assocSet k (f v) (l.map (fun p => (p.1, f p.2))) := by
  induction l with
  | nil => rfl
  | cons p l ih =>
    obtain ⟨k', v'⟩ := p
    simp only [assocSet, List.map_cons]
    by_cases hk : k' = k
    · rw [if_pos hk, if_pos hk, List.map_cons]
    · rw [if_neg hk, if_neg hk, List.map_cons, ih]

theorem map_set (d : Dict κ α) (f : α → β) (k : κ) (v : α) :
    (d.set k v).map f = (d.map f).set k (f v) := by
  rw [map, set, set]
  simp only [map_assocSet]
  rfl

theorem map_erase (d : Dict κ α) (f : α → β) (k : κ) : (d.erase k).map f = (d.map f).erase k := by
  simp only [map, erase, List.filter_map]
  rfl

/-- The dict that assignments in the order of a list build. -/
def ofList (l : List (κ × α)) : Dict κ α := l.foldl (fun d p => d.set p.1 p.2) .empty

theorem ofList_concat (l : List (κ × α)) (p : κ × α) :
    ofList (l ++ [p]) = (ofList l).set p.1 p.2 := by
  simp [ofList]

theorem mem_of_get_ofList {l : List (κ × α)} (h : (ofList l).get k = some v) : (k, v) ∈ l := by
  induction l using List.reverseRecOn with
  | nil => cases h
  | append_singleton l p ih =>
    rw [ofList_concat, get_set] at h
    by_cases hk : k = p.1
    · rw [if_pos hk] at h
      cases h
      simp [hk]
    · rw [if_neg hk] at h
      exact List.mem_append_left _ (ih h)

theorem get_ofList {l : List (κ × α)} (hl : (l.map Prod.fst).Nodup) (k : κ) :
    (ofList l).get k = l.lookup k := by
  induction l using List.reverseRecOn with
  | nil => rfl
  | append_singleton l p ih =>
    rw [List.map_append, List.nodup_append] at hl
    rw [ofList_concat, get_set, ih hl.1, List.lookup_append]
    by_cases hk : k = p.1
    · have hnone : l.lookup k = none := by
        rw [List.lookup_eq_none_iff]
        intro q hq
        rw [bne_iff_ne, hk]
        exact fun he => hl.2.2 q.1 (List.mem_map_of_mem hq) p.1 (by simp) he.symm
      obtain ⟨a, b⟩ := p
      change k = a at hk
      subst hk
      simp [hnone]
    · simp [if_neg hk, lookup_cons_ne hk]

theorem items_ofList_self {l : List (κ × α)} (h : (l.map Prod.fst).Nodup) :
    (ofList l).items = l := by
  induction l using List.reverseRecOn with
  | nil => rfl
  | append_singleton l p ih =>
    rw [List.map_append] at h
    obtain ⟨hl, _, hd⟩ := List.nodup_append.1 h
    rw [ofList_concat]
    change assocSet p.1 p.2 (ofList l).items = _
    rw [ih hl]
    apply assocSet_of_not_mem
    intro hp
    exact hd p.1 hp p.1 List.mem_cons_self rfl

theorem ofList_items (d : Dict κ α) : ofList d.items = d := by
  cases d with
  | mk items nodup =>
    have hitems := items_ofList_self nodup
    cases he : ofList items with
    | mk items' nodup' =>
      rw [he] at hitems
      cases hitems
      rfl

/-- A dict comprehension that drops pairs. -/
def filter (f : κ → Bool) (d : Dict κ α) : Dict κ α :=
  ⟨d.items.filter (fun p => f p.1), (List.filter_sublist.map _).nodup d.nodup⟩

theorem get_filter (d : Dict κ α) (f : κ → Bool) (k : κ) :
    (d.filter f).get k = if f k then d.get k else none := by
  apply Option.ext
  intro v
  rw [← mem_items]
  cases hf : f k with
  | false => simp [filter, hf]
  | true => simp [filter, hf, mem_items]

/-- A dict comprehension whose values may raise. -/
def mapM (f : α → Option β) (d : Dict κ α) : Option (Dict κ β) := do
  let l ← d.items.mapM (fun p => (f p.2).map (Prod.mk p.1))
  some (ofList l)

theorem lookup_mapM {f : α → Option β} {l : List (κ × α)} {r : List (κ × β)}
    (h : l.mapM (fun p => (f p.2).map (Prod.mk p.1)) = some r) :
    r.map Prod.fst = l.map Prod.fst ∧ ∀ k, r.lookup k = (l.lookup k).bind f := by
  induction l generalizing r with
  | nil =>
    cases h
    exact ⟨rfl, fun k => rfl⟩
  | cons p l ih =>
    rw [List.mapM_cons] at h
    obtain ⟨q, hq, h⟩ := Option.bind_eq_some_iff.1 h
    obtain ⟨r', hr', h⟩ := Option.bind_eq_some_iff.1 h
    obtain ⟨v, hv, rfl⟩ := Option.map_eq_some_iff.1 hq
    cases h
    obtain ⟨hkeys, hlook⟩ := ih hr'
    refine ⟨by simp [hkeys], fun k => ?_⟩
    obtain ⟨a, b⟩ := p
    by_cases hk : k = a
    · subst hk
      simpa using hv.symm
    · rw [lookup_cons_ne hk, lookup_cons_ne hk]
      exact hlook k

theorem get_mapM {f : α → Option β} {d : Dict κ α} {r : Dict κ β} (h : d.mapM f = some r)
    (k : κ) : r.get k = (d.get k).bind f := by
  obtain ⟨l, hl, h⟩ := Option.bind_eq_some_iff.1 h
  cases h
  obtain ⟨hkeys, hlook⟩ := lookup_mapM hl
  rw [get_ofList (hkeys ▸ d.nodup), hlook]
  rfl

theorem exists_of_mapM {f : α → Option β} {d : Dict κ α} {r : Dict κ β} (h : d.mapM f = some r)
    (hk : d.get k = some v) : ∃ w, f v = some w := by
  obtain ⟨l, hl, _⟩ := Option.bind_eq_some_iff.1 h
  have hkeys := (lookup_mapM hl).1
  have hget := (lookup_mapM hl).2 k
  rw [show d.items.lookup k = some v from hk, Option.bind_some] at hget
  cases hw : f v with
  | some w => exact ⟨w, rfl⟩
  | none =>
    rw [hw, List.lookup_eq_none_iff] at hget
    have hmem : k ∈ l.map Prod.fst := hkeys ▸ List.mem_map_of_mem (mem_items.2 hk)
    obtain ⟨p, hp, rfl⟩ := List.mem_map.1 hmem
    exact absurd rfl (bne_iff_ne.1 (hget p hp))

theorem exists_mapM {f : α → Option β} {d : Dict κ α}
    (h : ∀ k v, d.get k = some v → ∃ w, f v = some w) : ∃ r, d.mapM f = some r := by
  have hl : ∀ l : List (κ × α), (∀ p ∈ l, ∃ w, f p.2 = some w) →
      ∃ r, l.mapM (fun p => (f p.2).map (Prod.mk p.1)) = some r := by
    intro l
    induction l with
    | nil => exact fun _ => ⟨[], rfl⟩
    | cons p l ih =>
      intro hp
      obtain ⟨w, hw⟩ := hp p List.mem_cons_self
      obtain ⟨r, hr⟩ := ih (fun q hq => hp q (List.mem_cons_of_mem _ hq))
      exact ⟨(p.1, w) :: r, by rw [List.mapM_cons, hw, hr]; rfl⟩
  obtain ⟨r, hr⟩ := hl d.items (fun p hp => h p.1 p.2 (mem_items.1 hp))
  exact ⟨ofList r, by rw [mapM, hr]; rfl⟩

/-- Equality of dicts as Python's `==` decides it: the order of insertion is ignored. -/
def Same (d e : Dict κ α) : Prop := ∀ k, d.get k = e.get k

end Dict

end Suprime
