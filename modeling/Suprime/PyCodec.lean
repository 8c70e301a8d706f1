import Suprime.JsonNative

namespace Suprime
set_option autoImplicit true

section
variable {F : Type} [FiniteFloat F] [DecidableEq F] {α β : Type}

theorem loads_dumps_native {v : PyValue F} (h : native v = true) : loads (dumps v) = some v := by
  rw [loads_dumps, (viaJson_eq_self_iff v).2 h]

section
omit [FiniteFloat F]

theorem nativeList_iff (l : List (PyValue F)) :
    nativeList l = true ↔ ∀ v ∈ l, native v = true := by
  induction l with
  | nil => exact iff_of_true rfl (fun v h => by cases h)
  | cons v l ih =>
    rw [nativeList, Bool.and_eq_true, ih]
    simp only [List.mem_cons, forall_eq_or_imp]

end

/-- What is read from a written value is what was written, and JSON keeps it in between. -/
def RoundTrips (write : α → PyValue F) (read : PyValue F → Option α) (P : α → Prop) : Prop :=
  ∀ a, P a → native (write a) = true ∧ read (write a) = some a

theorem RoundTrips.loads {write : α → PyValue F} {read : PyValue F → Option α} {P : α → Prop}
    (h : RoundTrips write read P) {a : α} (ha : P a) :
    (loads (dumps (write a))).bind read = some a := by
  rw [loads_dumps_native (h a ha).1]
  exact (h a ha).2

def readInt : PyValue F → Option ℤ
  | .int i => some i
  | _ => none

def readStr : PyValue F → Option PyStr
  | .str s => some s
  | _ => none

def readBool : PyValue F → Option Bool
  | .bool b => some b
  | _ => none

section
omit [FiniteFloat F]

theorem roundTrips_int : RoundTrips (F := F) .int readInt (fun _ => True) := fun _ _ => ⟨rfl, rfl⟩

theorem roundTrips_str : RoundTrips (F := F) .str readStr (fun s => plain s = true) :=
  fun _ h => ⟨h, rfl⟩

end

def writeList (write : α → PyValue F) (l : List α) : PyValue F := .list (l.map write)

def readList (read : PyValue F → Option α) : PyValue F → Option (List α)
  | .list l => l.mapM read
  | _ => none

section
omit [FiniteFloat F] [DecidableEq F]

theorem mapM_map_eq_some {write : α → PyValue F} {read : PyValue F → Option α} {l : List α}
    (h : ∀ a ∈ l, read (write a) = some a) : (l.map write).mapM read = some l := by
  induction l with
  | nil => rfl
  | cons a l ih =>
    rw [List.map_cons, List.mapM_cons, h a List.mem_cons_self,
      ih (fun b hb => h b (List.mem_cons_of_mem _ hb))]
    rfl

end

section
omit [FiniteFloat F]

theorem roundTrips_list {write : α → PyValue F} {read : PyValue F → Option α} {P : α → Prop}
    (h : RoundTrips write read P) :
    RoundTrips (writeList write) (readList read) (fun l => ∀ a ∈ l, P a) := by
  intro l hl
  constructor
  · rw [writeList, native, nativeList_iff]
    intro v hv
    obtain ⟨a, ha, rfl⟩ := List.mem_map.1 hv
    exact (h a (hl a ha)).1
  · exact mapM_map_eq_some (fun a ha => (h a (hl a ha)).2)

end

def writeItems (l : List (PyStr × PyValue F)) : PyValue F :=
  .dict (l.map (fun p => (.str p.1, p.2)))

/-- `d.get(name, default)` -/
def getField (name : PyStr) (default : PyValue F) : PyValue F → Option (PyValue F)
  | .dict l => some ((l.lookup (.str name)).getD default)
  | _ => none

/-- `d.values()` -/
def dictValues : PyValue F → Option (List (PyValue F))
  | .dict l => some (l.map Prod.snd)
  | _ => none

def readKeyed (read : PyValue F → Option α) : PyKey F × PyValue F → Option (PyStr × α)
  | (.str k, v) => (read v).map (Prod.mk k)
  | _ => none

/-- A dict comprehension over `d.items()` -/
def readDict (read : PyValue F → Option α) : PyValue F → Option (Dict PyStr α)
  | .dict l => (l.mapM (readKeyed read)).map Dict.ofList
  | _ => none

section
omit [FiniteFloat F] [DecidableEq F]

theorem str_injective : Function.Injective (PyKey.str : PyStr → PyKey F) := by
  intro s t h
  cases h
  rfl

end

section
omit [FiniteFloat F]

theorem native_writeItems {l : List (PyStr × PyValue F)} (hl : (l.map Prod.fst).Nodup)
    (h : ∀ p ∈ l, plain p.1 = true ∧ native p.2 = true) : native (writeItems l) = true := by
  have hitems : ∀ l : List (PyStr × PyValue F),
      (∀ p ∈ l, plain p.1 = true ∧ native p.2 = true) →
      nativeItems (l.map (fun p => ((.str p.1 : PyKey F), p.2))) = true := by
    intro l
    induction l with
    | nil => exact fun _ => rfl
    | cons p l ih =>
      intro hp
      obtain ⟨hkey, hvalue⟩ := hp p List.mem_cons_self
      rw [List.map_cons, nativeItems, hkey, hvalue,
        ih (fun q hq => hp q (List.mem_cons_of_mem _ hq))]
      rfl
  rw [writeItems, native, hitems l h, Bool.true_and, decide_eq_true_eq, List.map_map]
  have hkeys := hl.map (str_injective (F := F))
  rw [List.map_map] at hkeys
  exact hkeys

theorem native_fields {f g : PyStr} {v w : PyValue F} (hf : plain f = true) (hg : plain g = true)
    (hne : f ≠ g) (hv : native v = true) (hw : native w = true) :
    native (writeItems [(f, v), (g, w)]) = true := by
  apply native_writeItems
  · simp [hne]
  · intro q hq
    rcases List.mem_cons.1 hq with rfl | hq
    · exact ⟨hf, hv⟩
    · cases List.mem_singleton.1 hq
      exact ⟨hg, hw⟩

theorem getField_writeItems (l : List (PyStr × PyValue F)) (name : PyStr) (default : PyValue F) :
    getField name default (writeItems l) = some ((l.lookup name).getD default) := by
  have hlookup : (l.map (fun p => ((.str p.1 : PyKey F), p.2))).lookup (.str name) =
      l.lookup name := by
    induction l with
    | nil => rfl
    | cons p l ih =>
      obtain ⟨k, v⟩ := p
      rw [List.map_cons]
      by_cases hk : name = k
      · rw [hk, List.lookup_cons_self, List.lookup_cons_self]
      · have hne : (PyKey.str name : PyKey F) ≠ .str k := fun he => hk (str_injective he)
        have hb : (name == k) = false := beq_eq_false_iff_ne.2 hk
        rw [lookup_cons_ne hne, ih, List.lookup_cons, hb]
  rw [writeItems, getField, hlookup]

end

section
omit [FiniteFloat F] [DecidableEq F]

theorem dictValues_writeItems (l : List (PyStr × PyValue F)) :
    dictValues (writeItems l) = some (l.map Prod.snd) := by
  rw [writeItems, dictValues, List.map_map]
  rfl

end

def writeDict (write : α → PyValue F) (d : Dict PyStr α) : PyValue F :=
  writeItems (d.items.map (fun p => (p.1, write p.2)))

section
omit [FiniteFloat F] [DecidableEq F]

theorem readDict_writeDict {write : α → PyValue F} {read : PyValue F → Option α}
    {d : Dict PyStr α} (h : ∀ p ∈ d.items, read (write p.2) = some p.2) :
    readDict read (writeDict write d) = some d := by
  have hread : ((d.items.map (fun p => (p.1, write p.2))).map
      (fun p => ((.str p.1 : PyKey F), p.2))).mapM (readKeyed read) = some d.items := by
    rw [List.map_map]
    have hitem : ∀ p ∈ d.items, readKeyed read ((.str p.1 : PyKey F), write p.2) = some p := by
      intro p hp
      rw [readKeyed, h p hp]
      rfl
    generalize d.items = l at hitem
    induction l with
    | nil => rfl
    | cons p l ih =>
      have hp := hitem p List.mem_cons_self
      rw [List.map_cons, List.mapM_cons, ih (fun q hq => hitem q (List.mem_cons_of_mem _ hq))]
      change (readKeyed read ((.str p.1 : PyKey F), write p.2)).bind _ = _
      rw [hp]
      rfl
  rw [writeDict, writeItems, readDict, hread, Option.map_some, Dict.ofList_items]

end

section
omit [FiniteFloat F]

theorem roundTrips_dict {write : α → PyValue F} {read : PyValue F → Option α} {P : α → Prop}
    (h : RoundTrips write read P) : RoundTrips (writeDict write) (readDict read)
      (fun d => ∀ p ∈ d.items, plain p.1 = true ∧ P p.2) := by
  intro d hd
  constructor
  · apply native_writeItems
    · rw [List.map_map]
      exact d.nodup
    · intro q hq
      obtain ⟨p, hp, rfl⟩ := List.mem_map.1 hq
      exact ⟨(hd p hp).1, (h p.2 (hd p hp).2).1⟩
  · exact readDict_writeDict (fun p hp => (h p.2 (hd p hp).2).2)

end

end

end Suprime
