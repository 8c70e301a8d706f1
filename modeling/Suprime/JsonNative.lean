import Suprime.JsonRoundTrip

namespace Suprime
set_option autoImplicit true

theorem length_assocSet [DecidableEq κ] (k : κ) (v : α) (l : List (κ × α)) :
    (assocSet k v l).length = if k ∈ l.map Prod.fst then l.length else l.length + 1 := by
  by_cases hk : k ∈ l.map Prod.fst
  · have hkeys := congrArg List.length (keys_assocSet_of_mem (v := v) hk)
    rw [List.length_map, List.length_map] at hkeys
    rw [if_pos hk, hkeys]
  · rw [if_neg hk, assocSet_of_not_mem hk, List.length_append, List.length_singleton]

theorem length_ofPairs_le [DecidableEq κ] (l : List (κ × α)) : (ofPairs l).length ≤ l.length := by
  induction l using List.reverseRecOn with
  | nil => exact le_rfl
  | append_singleton l p ih =>
    rw [ofPairs_concat, length_assocSet, List.length_append, List.length_singleton]
    split <;> omega

theorem ofPairs_eq_self_of_length [DecidableEq κ] {l : List (κ × α)}
    (h : (ofPairs l).length = l.length) : ofPairs l = l := by
  induction l using List.reverseRecOn with
  | nil => rfl
  | append_singleton l p ih =>
    have hle := length_ofPairs_le l
    rw [ofPairs_concat, length_assocSet, List.length_append, List.length_singleton] at h
    split at h
    · omega
    · rename_i hp
      have hl := ih (by omega)
      rw [hl] at hp
      rw [ofPairs_concat, hl, assocSet_of_not_mem hp]

section
variable [FiniteFloat F] [DecidableEq F]

mutual

/-- The values that JSON gives back as they were: no tuples, only strings as keys, and strings
without surrogate pairs. -/
def native : PyValue F → Bool
  | .none => true
  | .bool _ => true
  | .int _ => true
  | .float _ => true
  | .str s => plain s
  | .list l => nativeList l
  | .tuple _ => false
  | .dict l => nativeItems l && decide (l.map Prod.fst).Nodup

def nativeList : List (PyValue F) → Bool
  | [] => true
  | v :: l => native v && nativeList l

def nativeItems : List (PyKey F × PyValue F) → Bool
  | [] => true
  | (.str s, v) :: l => plain s && native v && nativeItems l
  | _ :: _ => false

end

mutual

/-- No float in the value, at any depth, is a NaN. -/
def nanFree : PyValue F → Bool
  | .none => true
  | .bool _ => true
  | .int _ => true
  | .float f => f ≠ .nan
  | .str _ => true
  | .list l => nanFreeList l
  | .tuple l => nanFreeList l
  | .dict l => nanFreeItems l

def nanFreeList : List (PyValue F) → Bool
  | [] => true
  | v :: l => nanFree v && nanFreeList l

def nanFreeItems : List (PyKey F × PyValue F) → Bool
  | [] => true
  | (k, v) :: l => (k ≠ .float .nan) && nanFree v && nanFreeItems l

end

/-- The values that are equal to what JSON gives back of them: a NaN comes back as another one. -/
def jsonNative (v : PyValue F) : Bool := native v && nanFree v

section
omit [FiniteFloat F]

theorem native_of_jsonNative {v : PyValue F} (h : jsonNative v = true) : native v = true :=
  (Bool.and_eq_true_iff.1 h).1

end

theorem length_viaJsonItems (l : List (PyKey F × PyValue F)) :
    (viaJsonItems l).length = l.length := by
  induction l with
  | nil => rfl
  | cons x l ih => rw [viaJsonItems, List.length_cons, List.length_cons, ih]

theorem viaJson_dict_eq_self_iff (l : List (PyKey F × PyValue F)) :
    viaJson (.dict l) = .dict l ↔ viaJsonItems l = l ∧ (l.map Prod.fst).Nodup := by
  rw [viaJson, PyValue.dict.injEq]
  constructor
  · intro h
    have hlen := congrArg List.length h
    have hsame := ofPairs_eq_self_of_length (hlen.trans (length_viaJsonItems l).symm)
    have hnodup := nodup_ofPairs (viaJsonItems l)
    rw [h] at hnodup
    exact ⟨hsame.symm.trans h, hnodup⟩
  · rintro ⟨h, hnodup⟩
    rw [h, ofPairs_eq_self hnodup]

mutual

theorem viaJson_eq_self_iff : (v : PyValue F) → (viaJson v = v ↔ native v = true)
  | .none => iff_of_true rfl rfl
  | .bool _ => iff_of_true rfl rfl
  | .int _ => iff_of_true rfl rfl
  | .float _ => iff_of_true rfl rfl
  | .str s => by
    rw [viaJson, native, PyValue.str.injEq]
    exact viaJsonStr_eq_self_iff s
  | .list l => by
    rw [viaJson, native, PyValue.list.injEq]
    exact viaJsonList_eq_self_iff l
  | .tuple l => by
    rw [viaJson, native]
    exact iff_of_false (fun h => by cases h) Bool.noConfusion
  | .dict l => by
    rw [viaJson_dict_eq_self_iff, native, Bool.and_eq_true, decide_eq_true_eq]
    rw [viaJsonItems_eq_self_iff l]

theorem viaJsonList_eq_self_iff : (l : List (PyValue F)) →
    (viaJsonList l = l ↔ nativeList l = true)
  | [] => iff_of_true rfl rfl
  | v :: l => by
    rw [viaJsonList, nativeList, List.cons.injEq, Bool.and_eq_true, viaJson_eq_self_iff v,
      viaJsonList_eq_self_iff l]

theorem viaJsonItems_eq_self_iff : (l : List (PyKey F × PyValue F)) →
    (viaJsonItems l = l ↔ nativeItems l = true)
  | [] => iff_of_true rfl rfl
  | (.str s, v) :: l => by
    rw [viaJsonItems, nativeItems, List.cons.injEq, Prod.mk.injEq, PyKey.str.injEq, keyStr,
      Bool.and_eq_true, Bool.and_eq_true, viaJsonStr_eq_self_iff, viaJson_eq_self_iff v,
      viaJsonItems_eq_self_iff l]
  | (.none, v) :: l => iff_of_false (fun h => by cases h) Bool.noConfusion
  | (.bool _, v) :: l => iff_of_false (fun h => by cases h) Bool.noConfusion
  | (.int _, v) :: l => iff_of_false (fun h => by cases h) Bool.noConfusion
  | (.float _, v) :: l => iff_of_false (fun h => by cases h) Bool.noConfusion

end

end

end Suprime
