import Mathlib.Order.WithBot
import Suprime.StoreMerge

namespace Suprime
set_option autoImplicit true

/-- A timestamp as the float object that a store holds. A NaN is equal to itself as an object
and to nothing else. -/
inductive Stamp (T : Type)
  | nan (object : ℕ)
  | num (t : T)
  deriving DecidableEq

namespace Stamp

/-- Python's `>` on floats: false as soon as one side is a NaN. -/
def gt [LinearOrder T] : Stamp T → Stamp T → Bool
  | num a, num b => b < a
  | _, _ => false

/-- Two numbers, or one and the same NaN. -/
def Alike : Stamp T → Stamp T → Prop
  | num _, num _ => True
  | nan i, nan j => i = j
  | _, _ => False

instance : DecidableRel (Alike (T := T))
  | num _, num _ => .isTrue trivial
  | nan i, nan j => inferInstanceAs (Decidable (i = j))
  | num _, nan _ => .isFalse id
  | nan _, num _ => .isFalse id

theorem Alike.refl (a : Stamp T) : a.Alike a := by
  cases a with
  | nan i => exact rfl
  | num t => trivial

theorem Alike.symm {a b : Stamp T} (h : a.Alike b) : b.Alike a := by
  cases a <;> cases b <;> simp_all [Alike]

theorem Alike.trans {a b c : Stamp T} (h : a.Alike b) (h' : b.Alike c) : a.Alike c := by
  cases a <;> cases b <;> cases c <;> simp_all [Alike]

/-- The number, and something below every number for a NaN. -/
def rank : Stamp T → WithBot T
  | nan _ => ⊥
  | num t => t

theorem rank_eq_iff {a b : Stamp T} (h : a.Alike b) : a.rank = b.rank ↔ a = b := by
  cases a <;> cases b <;> simp_all [Alike, rank]

variable [LinearOrder T]

theorem alike_of_gt {a b : Stamp T} (h : a.gt b = true) : a.Alike b := by
  cases a <;> cases b <;> simp_all [gt, Alike]

theorem gt_iff_rank_lt {a b : Stamp T} (h : a.Alike b) : a.gt b = true ↔ b.rank < a.rank := by
  cases a <;> cases b <;> simp_all [gt, Alike, rank]

end Stamp

def Version.rank (v : Version (Stamp T) ν) : WithBot T ×ₗ ν := toLex (v.ts.rank, v.origin)

theorem Version.eq_of_rank_eq {v w : Version (Stamp T) ν} (h : v.ts.Alike w.ts)
    (hr : v.rank = w.rank) : v = w := by
  obtain ⟨ht, ho⟩ := Prod.mk.inj (toLex.injective hr)
  have hts := (Stamp.rank_eq_iff h).1 ht
  cases v
  cases w
  simp_all

section Order

variable {T ν : Type} [LinearOrder T] [LinearOrder ν]

/-- `Version.__gt__`. A comparison of tuples goes on to the origins where the timestamps are
the same object or equal. -/
def Version.after (v w : Version (Stamp T) ν) : Bool :=
  if v.ts = w.ts then w.origin < v.origin else v.ts.gt w.ts

theorem Version.alike_of_after {v w : Version (Stamp T) ν} (h : v.after w = true) :
    v.ts.Alike w.ts := by
  by_cases ht : v.ts = w.ts
  · rw [ht]
    exact .refl _
  · rw [after, if_neg ht] at h
    exact Stamp.alike_of_gt h

theorem Version.after_iff {v w : Version (Stamp T) ν} (h : v.ts.Alike w.ts) :
    v.after w = true ↔ w.rank < v.rank := by
  rw [rank, rank, Prod.Lex.toLex_lt_toLex]
  by_cases ht : v.ts = w.ts
  · simp [after, ht]
  · have hne : w.ts.rank ≠ v.ts.rank := fun hr => ht ((Stamp.rank_eq_iff h).1 hr.symm)
    simp only [after, if_neg ht, Stamp.gt_iff_rank_lt h, hne, false_and, or_false]

theorem Version.rank_lt_of_after {v w : Version (Stamp T) ν} (h : v.after w = true) :
    w.rank < v.rank :=
  (after_iff (alike_of_after h)).1 h

end Order

/-- The calls by which a store takes in what other replicas hold. -/
inductive MergeCall (T ν κ : Type) (α : Type u)
  | mergeEntry (key : κ) (entry : Entry T ν α)
  | applyDigest (digest : Digest T ν κ α)

namespace MergeCall

variable {T ν κ : Type} {α : Type u} [PyNone α]

def pairs : MergeCall T ν κ α → List (κ × Entry T ν α)
  | mergeEntry key entry => [(key, entry)]
  | applyDigest d => d.items.map (fun p => (p.1, Entry.fromDict p.2))

/-- Everything a store holds and is then given, as pairs of key and entry. -/
def Involved [DecidableEq κ] (s : DistributedStore T ν κ α) (calls : List (MergeCall T ν κ α)) :
    Set (κ × Entry T ν α) :=
  {p | s.data.get p.1 = some p.2 ∨ ∃ c ∈ calls, p ∈ c.pairs}

end MergeCall

namespace StampedStore

variable {T ν κ : Type} {α : Type u} [LinearOrder T] [LinearOrder ν] [DecidableEq κ]

def mergeEntry (s : DistributedStore (Stamp T) ν κ α) (key : κ) (entry : Entry (Stamp T) ν α) :
    Outcome (Stamp T) ν κ α Bool :=
  let accept : Outcome (Stamp T) ν κ α Bool :=
    ⟨{ s with
        data := s.data.set key entry
        highestTs :=
          if entry.version.origin = s.nodeId ∧ entry.version.ts.gt s.highestTs = true then
            entry.version.ts
          else s.highestTs },
      true, if entry.deleted then [] else [(key, entry.value)], [(key, entry)]⟩
  match s.data.get key with
  | none => accept
  | some current => if entry.version.after current.version then accept else ⟨s, false, [], []⟩

def merge (s : DistributedStore (Stamp T) ν κ α) :
    List (κ × Entry (Stamp T) ν α) → Outcome (Stamp T) ν κ α Bool
  | [] => ⟨s, false, [], []⟩
  | (key, entry) :: snapshot =>
    let o := mergeEntry s key entry
    let o' := merge o.store snapshot
    ⟨o'.store, o.result || o'.result, o.notified ++ o'.notified, o.committed ++ o'.committed⟩

def applyDigest [PyNone α] (s : DistributedStore (Stamp T) ν κ α) (d : Digest (Stamp T) ν κ α) :
    Outcome (Stamp T) ν κ α Bool :=
  merge s (d.items.map (fun p => (p.1, Entry.fromDict p.2)))

def apply [PyNone α] (s : DistributedStore (Stamp T) ν κ α) :
    MergeCall (Stamp T) ν κ α → Outcome (Stamp T) ν κ α Bool
  | .mergeEntry key entry => mergeEntry s key entry
  | .applyDigest d => applyDigest s d

def applyAll [PyNone α] (s : DistributedStore (Stamp T) ν κ α)
    (calls : List (MergeCall (Stamp T) ν κ α)) : DistributedStore (Stamp T) ν κ α :=
  calls.foldl (fun s c => (apply s c).store) s

/-- What a merge keeps of the entry it finds and the entry it is given. -/
def kept (o : Option (Entry (Stamp T) ν α)) (e : Entry (Stamp T) ν α) : Entry (Stamp T) ν α :=
  match o with
  | none => e
  | some c => if e.version.after c.version then e else c

theorem mergeEntry_cases (s : DistributedStore (Stamp T) ν κ α) (key : κ)
    (e : Entry (Stamp T) ν α) :
    ((∀ c, s.data.get key = some c → e.version.after c.version = true) ∧
      (mergeEntry s key e).result = true ∧
      (mergeEntry s key e).store.data = s.data.set key e) ∨
    ((∃ c, s.data.get key = some c ∧ e.version.after c.version = false) ∧
      (mergeEntry s key e).result = false ∧ (mergeEntry s key e).store = s) := by
  cases hk : s.data.get key with
  | none =>
    refine .inl ⟨fun c hc => ?_, ?_, ?_⟩
    · cases hc
    · simp only [mergeEntry, hk]
    · simp only [mergeEntry, hk]
  | some c =>
    cases hv : e.version.after c.version with
    | true =>
      refine .inl ⟨fun c' hc' => ?_, ?_, ?_⟩
      · cases hc'
        exact hv
      · simp only [mergeEntry, hk, hv, if_true]
      · simp only [mergeEntry, hk, hv, if_true]
    | false =>
      refine .inr ⟨⟨c, rfl, hv⟩, ?_, ?_⟩
      · simp [mergeEntry, hk, hv]
      · simp [mergeEntry, hk, hv]

theorem get_mergeEntry (s : DistributedStore (Stamp T) ν κ α) (key k : κ)
    (e : Entry (Stamp T) ν α) :
    (mergeEntry s key e).store.data.get k =
      if k = key then some (kept (s.data.get key) e) else s.data.get k := by
  rcases mergeEntry_cases s key e with ⟨hlt, -, he⟩ | ⟨⟨c, hc, hle⟩, -, he⟩
  · have hn : kept (s.data.get key) e = e := by
      cases hk : s.data.get key with
      | none => rfl
      | some c => exact if_pos (hlt c hk)
    rw [he, hn]
    exact Dict.get_set _ _ _ _
  · rw [he, hc]
    by_cases hk : k = key
    · subst hk
      simp [hc, kept, hle]
    · rw [if_neg hk]

/-- What is kept is never of a lower rank than what was there. -/
theorem rank_le_kept {o : Option (Entry (Stamp T) ν α)} {c : Entry (Stamp T) ν α}
    (hc : o = some c) (e : Entry (Stamp T) ν α) : c.version.rank ≤ (kept o e).version.rank := by
  subst hc
  cases hv : e.version.after c.version with
  | true => simpa [kept, hv] using (Version.rank_lt_of_after hv).le
  | false => simp [kept, hv]

theorem kept_eq_newer {o : Option (Entry (Stamp T) ν α)} {e : Entry (Stamp T) ν α}
    (h : ∀ c, o = some c → e.version.ts.Alike c.version.ts) :
    kept o e = newer (fun e => e.version.rank) o e := by
  cases o with
  | none => rfl
  | some c => simp only [kept, newer, Version.after_iff (h c rfl)]

theorem merge_cons (s : DistributedStore (Stamp T) ν κ α) (p : κ × Entry (Stamp T) ν α)
    (l : List (κ × Entry (Stamp T) ν α)) :
    (merge s (p :: l)).store = (merge (mergeEntry s p.1 p.2).store l).store := rfl

theorem get_merge_mono {s : DistributedStore (Stamp T) ν κ α} {k : κ}
    {e : Entry (Stamp T) ν α} (h : s.data.get k = some e) (l : List (κ × Entry (Stamp T) ν α)) :
    ∃ e', (merge s l).store.data.get k = some e' ∧ e.version.rank ≤ e'.version.rank := by
  induction l generalizing s e with
  | nil => exact ⟨e, h, le_rfl⟩
  | cons p l ih =>
    have hp := get_mergeEntry s p.1 k p.2
    rw [merge_cons]
    by_cases hk : k = p.1
    · rw [if_pos hk, ← hk] at hp
      obtain ⟨e', he', hle⟩ := ih hp
      rw [hk] at hp he' ⊢
      exact ⟨e', he', (rank_le_kept (hk ▸ h) _).trans hle⟩
    · rw [if_neg hk] at hp
      exact ih (hp.trans h)

theorem get_merge_mem {s : DistributedStore (Stamp T) ν κ α}
    {l : List (κ × Entry (Stamp T) ν α)} {k : κ} {e : Entry (Stamp T) ν α}
    (h : (merge s l).store.data.get k = some e) : s.data.get k = some e ∨ (k, e) ∈ l := by
  induction l generalizing s with
  | nil => exact .inl h
  | cons p l ih =>
    rcases ih h with hs | hl
    · rcases mergeEntry_cases s p.1 p.2 with ⟨-, -, he⟩ | ⟨-, -, he⟩
      · rw [he, Dict.get_set] at hs
        by_cases hk : k = p.1
        · rw [if_pos hk, Option.some.injEq] at hs
          rw [hk, ← hs]
          exact .inr List.mem_cons_self
        · rw [if_neg hk] at hs
          exact .inl hs
      · rw [he] at hs
        exact .inl hs
    · exact .inr (List.mem_cons_of_mem _ hl)

theorem merge_result_iff (s : DistributedStore (Stamp T) ν κ α)
    (l : List (κ × Entry (Stamp T) ν α)) :
    (merge s l).result = true ↔ ¬ s.data.Same (merge s l).store.data := by
  induction l generalizing s with
  | nil => simp [merge, Dict.Same]
  | cons p l ih =>
    rcases mergeEntry_cases s p.1 p.2 with ⟨hlt, hr, he⟩ | ⟨-, hr, he⟩
    · have hk : (mergeEntry s p.1 p.2).store.data.get p.1 = some p.2 := by
        rw [he]
        exact Dict.get_set_self _ _ _
      obtain ⟨e', he', hle⟩ := get_merge_mono hk l
      have hns : ¬ s.data.Same (merge s (p :: l)).store.data := by
        intro hs
        have hc : s.data.get p.1 = some e' := (hs p.1).trans he'
        exact absurd hle (not_le.2 (Version.rank_lt_of_after (hlt e' hc)))
      simpa only [merge, hr, Bool.true_or, true_iff] using hns
    · have hm : (merge s (p :: l)).store = (merge s l).store := by simp only [merge, he]
      rw [hm, ← ih s]
      simp only [merge, hr, he, Bool.false_or]

theorem merge_append (s : DistributedStore (Stamp T) ν κ α)
    (l l' : List (κ × Entry (Stamp T) ν α)) :
    (merge s (l ++ l')).store = (merge (merge s l).store l').store := by
  induction l generalizing s with
  | nil => rfl
  | cons p l ih => rw [List.cons_append, merge_cons, ih, merge_cons]

theorem apply_eq_merge [PyNone α] (s : DistributedStore (Stamp T) ν κ α)
    (c : MergeCall (Stamp T) ν κ α) :
    (apply s c).store = (merge s c.pairs).store ∧
      (apply s c).result = (merge s c.pairs).result := by
  cases c with
  | mergeEntry key e => exact ⟨rfl, (Bool.or_false _).symm⟩
  | applyDigest d => exact ⟨rfl, rfl⟩

theorem applyAll_eq_merge [PyNone α] (s : DistributedStore (Stamp T) ν κ α)
    (calls : List (MergeCall (Stamp T) ν κ α)) :
    applyAll s calls = (merge s (calls.flatMap MergeCall.pairs)).store := by
  induction calls generalizing s with
  | nil => rfl
  | cons c calls ih =>
    rw [List.flatMap_cons, merge_append, ← (apply_eq_merge s c).1]
    exact ih _

theorem isNewest_merge {s : DistributedStore (Stamp T) ν κ α} {k : κ}
    {S : Set (Entry (Stamp T) ν α)}
    (h : IsNewest (fun e => e.version.rank) S (s.data.get k))
    {l : List (κ × Entry (Stamp T) ν α)}
    (hal : ∀ e ∈ S ∪ DistributedStore.offered l k, ∀ e' ∈ S ∪ DistributedStore.offered l k,
      e.version.ts.Alike e'.version.ts) :
    IsNewest (fun e => e.version.rank) (S ∪ DistributedStore.offered l k)
      ((merge s l).store.data.get k) := by
  induction l generalizing s S with
  | nil =>
    apply h.congr
    intro x
    simp [DistributedStore.offered]
  | cons p l ih =>
    obtain ⟨key, e⟩ := p
    have hp := get_mergeEntry s key k e
    rw [merge_cons]
    by_cases hk : k = key
    · subst hk
      have hset : S ∪ DistributedStore.offered ((k, e) :: l) k =
          insert e S ∪ DistributedStore.offered l k := by
        ext x
        simp only [DistributedStore.offered, Set.mem_union, Set.mem_ofPred_eq, List.mem_cons,
          Prod.mk.injEq, true_and, Set.mem_insert_iff]
        tauto
      rw [hset] at hal ⊢
      have hkept : kept (s.data.get k) e = newer (fun e => e.version.rank) (s.data.get k) e :=
        kept_eq_newer (fun c hc => hal e (.inl (.inl rfl)) c (.inl (.inr (h.mem hc))))
      rw [if_pos rfl, hkept] at hp
      apply ih
      · rw [hp]
        exact h.merge e
      · exact hal
    · have hset : DistributedStore.offered ((key, e) :: l) k = DistributedStore.offered l k := by
        ext x
        simp [DistributedStore.offered, hk]
      rw [if_neg hk] at hp
      rw [hset] at hal ⊢
      apply ih
      · rw [hp]
        exact h
      · exact hal

theorem isNewest_held (s : DistributedStore (Stamp T) ν κ α) (k : κ) :
    IsNewest (fun e => e.version.rank) {e | s.data.get k = some e} (s.data.get k) := by
  cases hk : s.data.get k with
  | none => exact Set.eq_empty_of_forall_notMem (fun e he => by cases he)
  | some e =>
    refine ⟨rfl, ?_⟩
    rintro x hx
    cases hx
    exact le_rfl

/-- Every two timestamps of one key are two numbers or the same NaN. -/
def AlikeStamps (I : Set (κ × Entry (Stamp T) ν α)) : Prop :=
  ∀ k e e', (k, e) ∈ I → (k, e') ∈ I → e.version.ts.Alike e'.version.ts

/-- The entry among `S` that the code puts after all the others, if there is any entry. -/
def Greatest (S : Set (Entry (Stamp T) ν α)) : Option (Entry (Stamp T) ν α) → Prop
  | none => S = ∅
  | some e => e ∈ S ∧ ∀ x ∈ S, x = e ∨ e.version.after x.version = true

theorem isNewest_applyAll [PyNone α] (s : DistributedStore (Stamp T) ν κ α)
    (calls : List (MergeCall (Stamp T) ν κ α))
    (hal : AlikeStamps (MergeCall.Involved s calls)) (k : κ) :
    IsNewest (fun e => e.version.rank) {e | (k, e) ∈ MergeCall.Involved s calls}
      ((applyAll s calls).data.get k) := by
  have hset : {e | (k, e) ∈ MergeCall.Involved s calls} =
      {e | s.data.get k = some e} ∪
        DistributedStore.offered (calls.flatMap MergeCall.pairs) k := by
    ext e
    simp [MergeCall.Involved, DistributedStore.offered]
  rw [hset, applyAll_eq_merge]
  apply isNewest_merge (isNewest_held s k)
  rw [← hset]
  exact fun e he e' he' => hal k e e' he he'

theorem greatest_of_isNewest {S : Set (Entry (Stamp T) ν α)} {o : Option (Entry (Stamp T) ν α)}
    (h : IsNewest (fun e => e.version.rank) S o)
    (hal : ∀ e ∈ S, ∀ e' ∈ S, e.version.ts.Alike e'.version.ts)
    (hdet : ∀ e ∈ S, ∀ e' ∈ S, e.version = e'.version → e = e') : Greatest S o := by
  cases o with
  | none => exact h
  | some e =>
    obtain ⟨he, hle⟩ := h
    refine ⟨he, fun x hx => ?_⟩
    rcases (hle x hx).lt_or_eq with hlt | heq
    · exact .inr ((Version.after_iff (hal e he x hx)).2 hlt)
    · exact .inl (hdet x hx e he (Version.eq_of_rank_eq (hal x hx e he) heq))

theorem Greatest.alike {S : Set (Entry (Stamp T) ν α)} {o : Option (Entry (Stamp T) ν α)}
    (h : Greatest S o) {e e' : Entry (Stamp T) ν α} (he : e ∈ S) (he' : e' ∈ S) :
    e.version.ts.Alike e'.version.ts := by
  cases o with
  | none =>
    rw [show S = ∅ from h] at he
    cases he
  | some m =>
    have hm : ∀ x ∈ S, m.version.ts.Alike x.version.ts := by
      intro x hx
      rcases h.2 x hx with rfl | hgt
      · exact .refl _
      · exact Version.alike_of_after hgt
    exact (hm e he).symm.trans (hm e' he')

theorem Greatest.unique {S : Set (Entry (Stamp T) ν α)}
    {o o' : Option (Entry (Stamp T) ν α)} (h : Greatest S o) (h' : Greatest S o') : o = o' := by
  cases o with
  | none =>
    cases o' with
    | none => rfl
    | some e' =>
      have he := h'.1
      rw [show S = ∅ from h] at he
      cases he
  | some e =>
    cases o' with
    | none =>
      have he := h.1
      rw [show S = ∅ from h'] at he
      cases he
    | some e' =>
      rcases h.2 e' h'.1 with rfl | hlt
      · rfl
      · rcases h'.2 e h.1 with rfl | hlt'
        · rfl
        · exact absurd (Version.rank_lt_of_after hlt) (Version.rank_lt_of_after hlt').not_gt

/-- Stores that hold and are given the same entries, in any order, batching and duplication, end
with the same newest entries exactly where each key has numbers only or a single NaN. -/
theorem merges_converge_iff [PyNone α] (s t : DistributedStore (Stamp T) ν κ α)
    (cs ds : List (MergeCall (Stamp T) ν κ α))
    (hdet : ∀ k e e', (k, e) ∈ MergeCall.Involved s cs ∪ MergeCall.Involved t ds →
      (k, e') ∈ MergeCall.Involved s cs ∪ MergeCall.Involved t ds →
      e.version = e'.version → e = e')
    (hsame : MergeCall.Involved s cs = MergeCall.Involved t ds) :
    ((applyAll s cs).data.Same (applyAll t ds).data ∧
      (∀ k, Greatest {e | (k, e) ∈ MergeCall.Involved s cs} ((applyAll s cs).data.get k)) ∧
      (∀ (u : DistributedStore (Stamp T) ν κ α) (c : MergeCall (Stamp T) ν κ α),
        (apply u c).result = true ↔ ¬ u.data.Same (apply u c).store.data)) ↔
    AlikeStamps (MergeCall.Involved s cs) := by
  constructor
  · rintro ⟨-, hgreatest, -⟩ k e e' he he'
    exact (hgreatest k).alike he he'
  · intro hal
    have hdet' : ∀ k e e', (k, e) ∈ MergeCall.Involved s cs → (k, e') ∈ MergeCall.Involved s cs →
        e.version = e'.version → e = e' :=
      fun k e e' he he' => hdet k e e' (.inl he) (.inl he')
    have hs := fun k => greatest_of_isNewest (isNewest_applyAll s cs hal k)
      (fun e he e' he' => hal k e e' he he') (fun e he e' he' => hdet' k e e' he he')
    rw [hsame] at hal hdet'
    have ht := fun k => greatest_of_isNewest (isNewest_applyAll t ds hal k)
      (fun e he e' he' => hal k e e' he he') (fun e he e' he' => hdet' k e e' he he')
    refine ⟨fun k => ?_, hs, fun u c => ?_⟩
    · apply (hs k).unique
      rw [hsame]
      exact ht k
    · rw [(apply_eq_merge u c).1, (apply_eq_merge u c).2]
      exact merge_result_iff u c.pairs

/-- Two writes to one key, by different nodes at different times. -/
def firstWrite : Entry (Stamp ℚ) String (Option ℕ) := ⟨some 1, ⟨.num 1, "a"⟩, false⟩

def secondWrite : Entry (Stamp ℚ) String (Option ℕ) := ⟨none, ⟨.num 2, "b"⟩, true⟩

def nanWrite : Entry (Stamp ℚ) String (Option ℕ) := ⟨some 3, ⟨.nan 0, "b"⟩, false⟩

def emptyStore : DistributedStore (Stamp ℚ) String String (Option ℕ) := ⟨"t", .empty, .num 0⟩

theorem involved_writes (calls : List (MergeCall (Stamp ℚ) String String (Option ℕ)))
    (e e' : Entry (Stamp ℚ) String (Option ℕ))
    (h : ∀ p, (∃ c ∈ calls, p ∈ c.pairs) ↔ p = ("k", e) ∨ p = ("k", e')) :
    MergeCall.Involved emptyStore calls = {("k", e), ("k", e')} := by
  ext p
  simp only [MergeCall.Involved, Set.mem_ofPred_eq, h]
  constructor
  · rintro (he | he)
    · cases he
    · exact he
  · exact .inr

theorem merges_converge_iff_of_reversed :
    (applyAll emptyStore
        [.mergeEntry "k" firstWrite, .mergeEntry "k" secondWrite]).data.Same
      (applyAll emptyStore
        [.applyDigest (Dict.empty.set "k" secondWrite.toDict), .mergeEntry "k" firstWrite,
          .mergeEntry "k" firstWrite]).data := by
  have hcs := involved_writes [.mergeEntry "k" firstWrite, .mergeEntry "k" secondWrite]
    firstWrite secondWrite (by intro p; simp [MergeCall.pairs])
  have hds := involved_writes
    [.applyDigest (Dict.empty.set "k" secondWrite.toDict), .mergeEntry "k" firstWrite,
      .mergeEntry "k" firstWrite]
    firstWrite secondWrite
    (by
      intro p
      simp [MergeCall.pairs, Dict.set, Dict.empty, assocSet, or_comm])
  refine ((merges_converge_iff emptyStore emptyStore _ _ ?_ (hcs.trans hds.symm)).2 ?_).1
  · rw [hcs, hds, Set.union_self]
    rintro k e e' (he | he) (he' | he') hv <;> cases he <;> cases he'
    · rfl
    · exact absurd hv (by decide)
    · exact absurd hv (by decide)
    · rfl
  · rw [hcs]
    rintro k e e' (he | he) (he' | he') <;> cases he <;> cases he' <;> trivial

/-- A NaN and a number in two orders: each store keeps the entry that came first. -/
theorem nan_and_number_diverge :
    (∀ k e e',
      (k, e) ∈ MergeCall.Involved emptyStore
        [.mergeEntry "k" nanWrite, .mergeEntry "k" firstWrite] →
      (k, e') ∈ MergeCall.Involved emptyStore
        [.mergeEntry "k" nanWrite, .mergeEntry "k" firstWrite] →
      e.version = e'.version → e = e') ∧
    MergeCall.Involved emptyStore [.mergeEntry "k" nanWrite, .mergeEntry "k" firstWrite] =
      MergeCall.Involved emptyStore [.mergeEntry "k" firstWrite, .mergeEntry "k" nanWrite] ∧
    ¬ (applyAll emptyStore [.mergeEntry "k" nanWrite, .mergeEntry "k" firstWrite]).data.Same
      (applyAll emptyStore [.mergeEntry "k" firstWrite, .mergeEntry "k" nanWrite]).data := by
  have hcs := involved_writes [.mergeEntry "k" nanWrite, .mergeEntry "k" firstWrite]
    nanWrite firstWrite (by intro p; simp [MergeCall.pairs])
  have hds := involved_writes [.mergeEntry "k" firstWrite, .mergeEntry "k" nanWrite]
    nanWrite firstWrite (by intro p; simp [MergeCall.pairs, or_comm])
  rw [hcs, hds]
  refine ⟨?_, rfl, ?_⟩
  · rintro k e e' (he | he) (he' | he') hv <;> cases he <;> cases he'
    · rfl
    · exact absurd hv (by decide)
    · exact absurd hv (by decide)
    · rfl
  · intro h
    exact absurd (h "k") (by decide)

end StampedStore

end Suprime
