import Suprime.Tasks
import Suprime.StoreSwarm

namespace Suprime
set_option autoImplicit true

namespace StoreSwarm

variable {T ν κ : Type} {α : Type u} [LinearOrder T] [LinearOrder ν] [DecidableEq κ]
  [Timestamp T] [PyNone α]

theorem get_step {s s' : StoreSwarm T ν κ α} (h : s.step a = some s')
    (hg : (s.store n).data.get k = some e) :
    ∃ e', (s'.store n).data.get k = some e' ∧
      (e.version ≤ e'.version ∨ s'.written = s.written ++ [(k, e')]) := by
  rcases step_cases h with ⟨m, key, x, clock, _, _, rfl⟩ | ⟨_, rfl⟩ | ⟨m, _, rfl⟩ |
    ⟨m, l, _, _, rfl⟩
  · by_cases hm : n = m
    · subst hm
      simp only [wrote, Function.update_self, DistributedStore.get_putLocal]
      by_cases hk : k = key
      · subst hk
        exact ⟨x, if_pos rfl, .inr rfl⟩
      · rw [if_neg hk]
        exact ⟨e, hg, .inl le_rfl⟩
    · simp only [wrote, Function.update_of_ne hm]
      exact ⟨e, hg, .inl le_rfl⟩
  · exact ⟨e, hg, .inl le_rfl⟩
  · exact ⟨e, hg, .inl le_rfl⟩
  · by_cases hm : n = m
    · subst hm
      simp only [given, Function.update_self]
      obtain ⟨e', he', hle⟩ := DistributedStore.get_merge_mono hg l
      exact ⟨e', he', .inl hle⟩
    · simp only [given, Function.update_of_ne hm]
      exact ⟨e, hg, .inl le_rfl⟩

theorem written_mono {s s' : StoreSwarm T ν κ α} (h : s.step a = some s') :
    ∀ p ∈ s.written, p ∈ s'.written := by
  intro p hp
  rcases step_cases h with ⟨m, key, x, clock, _, _, rfl⟩ | ⟨_, rfl⟩ | ⟨m, _, rfl⟩ |
    ⟨m, l, _, _, rfl⟩
  · exact List.mem_append_left _ hp
  · exact hp
  · exact hp
  · exact hp

theorem written_set {s s' : StoreSwarm T ν κ α} (h : s.step (.set n key value clock) = some s') :
    s'.written = s.written ++
      [(key, ⟨value, ⟨(s.store n).nextTs clock, (s.store n).nodeId⟩, false⟩)] := by
  cases h
  rfl

theorem get_of_set {s s' : StoreSwarm T ν κ α} (h : s.step (.set n key value clock) = some s') :
    (s'.store n).data.get key =
      some ⟨value, ⟨(s.store n).nextTs clock, (s.store n).nodeId⟩, false⟩ := by
  cases h
  simp only [wrote, Function.update_self]
  exact Dict.get_set_self _ _ _

theorem written_mergeEntry {s s' : StoreSwarm T ν κ α}
    (h : s.step (.mergeEntry n i key) = some s') :
    s'.written = s.written := by
  obtain ⟨d, _, h⟩ := Option.bind_eq_some_iff.1 h
  obtain ⟨x, _, h⟩ := Option.bind_eq_some_iff.1 h
  cases h
  rfl

theorem written_applyDigest {s s' : StoreSwarm T ν κ α} (h : s.step (.applyDigest n i) = some s') :
    s'.written = s.written := by
  obtain ⟨d, _, h⟩ := Option.bind_eq_some_iff.1 h
  cases h
  rfl

end StoreSwarm

/-- A call of `evaluate`: the tasks that its loop has not reached and the task whose handler it
is waiting for. -/
structure EvalThread (α : Type) where
  rest : List (Task α)
  executing : Option (Task α)

/-- Task boards over replicated stores. Any number of calls of `evaluate` may be under way on a
node, and every id ever submitted is remembered. -/
structure TaskSwarm (α : Type) where
  stores : StoreSwarm ℚ Str Str (Stored α)
  board : Str → TaskBoard
  threads : Str → List (EvalThread α)
  submitted : List Str

inductive TaskAction (α : Type)
  | submit (n tid kind : Str) (args : α) (clock : ℚ)
  | registerHandler (n kind : Str)
  | setLoadModel (n : Str) (weight : ℚ)
  | put (n key : Str) (value : α) (clock : ℚ)
  | evaluate (n : Str)
  | advance (n : Str) (i : ℕ) (clock load storeClock : ℚ)
  | finish (n : Str) (i : ℕ) (outcome : HandlerOutcome α) (clock : ℚ)
  | digest (n : Str)
  | mergeEntry (n : Str) (i : ℕ) (key : Str)
  | applyDigest (n : Str) (i : ℕ)

namespace TaskSwarm

variable {α : Type}

def init (claimGraceRounds : ℕ) : TaskSwarm α :=
  ⟨.init, fun n => .init n claimGraceRounds, fun _ => [], []⟩

def setBoard (s : TaskSwarm α) (n : Str) (b : TaskBoard) : TaskSwarm α :=
  { s with board := Function.update s.board n b }

def setThread (s : TaskSwarm α) (n : Str) (i : ℕ) (th : EvalThread α) : TaskSwarm α :=
  { s with threads := Function.update s.threads n ((s.threads n).set i th) }

def claim (s : TaskSwarm α) (n : Str) (task : Task α) (clock load storeClock : ℚ) :
    Option (StoreSwarm ℚ Str Str (Stored α)) :=
  match (s.board n).maybeClaim (s.stores.store n) task clock load with
  | none => some s.stores
  | some (key, value) => s.stores.step (.set n key value storeClock)

/-- One turn of the loop of `evaluate`, up to the call of a handler. -/
def advance (s : TaskSwarm α) (n : Str) (i : ℕ) (task : Task α) (rest : List (Task α))
    (clock load storeClock : ℚ) : Option (TaskSwarm α) :=
  if task.state ≠ .PENDING then
    some ((s.setBoard n ((s.board n).forget task.id)).setThread n i ⟨rest, none⟩)
  else if task.kind ∉ (s.board n).handlers then some (s.setThread n i ⟨rest, none⟩)
  else do
    let stores ← s.claim n task clock load storeClock
    let claims ← TaskBoard.claims (stores.store n) task.id
    let (b, runs) := (s.board n).settle claims task
    some (({ s with stores }.setBoard n b).setThread n i
      ⟨rest, if runs then some task else none⟩)

def step [PyNone α] (s : TaskSwarm α) : TaskAction α → Option (TaskSwarm α)
  | .submit n tid kind args clock =>
    if tid ∈ s.submitted then none
    else do
      let stores ← s.stores.step
        (.set n (TASK_PREFIX ++ tid) (.task (TaskBoard.newTask n tid kind args)) clock)
      some { s with stores, submitted := s.submitted ++ [tid] }
  | .registerHandler n kind =>
    some (s.setBoard n { s.board n with handlers := kind :: (s.board n).handlers })
  | .setLoadModel n weight =>
    some (s.setBoard n { s.board n with loadWeight := some weight })
  | .put n key value clock =>
    if TASK_PREFIX.isPrefixOf key ∨ CLAIM_PREFIX.isPrefixOf key then none
    else do
      let stores ← s.stores.step (.set n key (.plain value) clock)
      some { s with stores }
  | .evaluate n => do
    let tasks ← TaskBoard.tasks (s.stores.store n)
    some { s with threads := Function.update s.threads n (s.threads n ++ [⟨tasks, none⟩]) }
  | .advance n i clock load storeClock => do
    let th ← (s.threads n)[i]?
    match th with
    | ⟨task :: rest, none⟩ => s.advance n i task rest clock load storeClock
    | _ => none
  | .finish n i outcome clock => do
    let th ← (s.threads n)[i]?
    let task ← th.executing
    let stores ← s.stores.step
      (.set n (TASK_PREFIX ++ task.id) (.task (task.ended n outcome)) clock)
    some ({ s with stores }.setThread n i ⟨th.rest, none⟩)
  | .digest n => do
    let stores ← s.stores.step (.digest n)
    some { s with stores }
  | .mergeEntry n i key => do
    let stores ← s.stores.step (.mergeEntry n i key)
    some { s with stores }
  | .applyDigest n i => do
    let stores ← s.stores.step (.applyDigest n i)
    some { s with stores }

/-- What a step must meet: the record that a handler's end writes must be newer than the record
of the task that the node holds. -/
def Meets (s : TaskSwarm α) : TaskAction α → Prop
  | .finish n i _ clock => ∀ th ∈ (s.threads n)[i]?, ∀ task ∈ th.executing,
      (s.stores.store n).Outdates (TASK_PREFIX ++ task.id) clock
  | _ => True

instance [LinearOrder T] [LinearOrder ν] [DecidableEq κ] [Timestamp T]
    (s : DistributedStore T ν κ α) (key : κ) (clock : T) : Decidable (s.Outdates key clock) :=
  inferInstanceAs (Decidable (∀ e ∈ s.data.get key, _))

instance (s : TaskSwarm α) : (a : TaskAction α) → Decidable (s.Meets a)
  | .finish n i _ clock => inferInstanceAs (Decidable (∀ th ∈ (s.threads n)[i]?,
      ∀ task ∈ th.executing, (s.stores.store n).Outdates (TASK_PREFIX ++ task.id) clock))
  | .submit .. => isTrue trivial
  | .registerHandler .. => isTrue trivial
  | .setLoadModel .. => isTrue trivial
  | .put .. => isTrue trivial
  | .evaluate .. => isTrue trivial
  | .advance .. => isTrue trivial
  | .digest .. => isTrue trivial
  | .mergeEntry .. => isTrue trivial
  | .applyDigest .. => isTrue trivial

def isPending : Stored α → Bool
  | .task t => t.state = .PENDING
  | _ => false

theorem isPending_ended (t : Task α) (n : Str) (o : HandlerOutcome α) :
    isPending (.task (t.ended n o)) = false := by
  cases o <;> rfl

/-- What every run writes: records of tasks under the keys of submitted ids, the pending one
first, and the others newer than it. -/
structure TaskLog (submitted : List Str) (written : List (Str × Entry ℚ Str (Stored α))) :
    Prop where
  record : ∀ p ∈ written, TASK_PREFIX <+: p.1 → p.2.deleted = false ∧
    ∃ t, p.2.value = .task t ∧ p.1 = TASK_PREFIX ++ t.id ∧ t.id ∈ submitted
  order : written.Pairwise (fun p q => p.1 = q.1 → TASK_PREFIX <+: p.1 →
    isPending q.2.value = false ∧ (isPending p.2.value = true → p.2.version < q.2.version))

namespace TaskLog

variable {submitted : List Str} {written : List (Str × Entry ℚ Str (Stored α))}

theorem submitted_of_mem (h : TaskLog submitted written) (hp : (TASK_PREFIX ++ tid, e) ∈ written) :
    tid ∈ submitted := by
  obtain ⟨_, t, _, hk, hs⟩ := h.record _ hp (List.prefix_append _ _)
  rw [List.append_cancel_left hk]
  exact hs

theorem pending_le (h : TaskLog submitted written) (hp : (TASK_PREFIX ++ tid, e) ∈ written)
    (hq : (TASK_PREFIX ++ tid, e') ∈ written) (he : isPending e.value = true) :
    e = e' ∨ (e.version < e'.version ∧ isPending e'.value = false) := by
  have hpre := List.prefix_append TASK_PREFIX tid
  rcases List.pairwise_iff_getElem.1 h.order with hord
  obtain ⟨i, hi, hpi⟩ := List.getElem_of_mem hp
  obtain ⟨j, hj, hqj⟩ := List.getElem_of_mem hq
  rcases lt_trichotomy i j with hij | hij | hij
  · have hlt := hord i j hi hj hij
    rw [hpi, hqj] at hlt
    obtain ⟨hn, hv⟩ := hlt rfl hpre
    exact .inr ⟨hv he, hn⟩
  · subst hij
    rw [hpi] at hqj
    cases hqj
    exact .inl rfl
  · have hlt := hord j i hj hi hij
    rw [hpi, hqj] at hlt
    obtain ⟨hn, _⟩ := hlt rfl hpre
    rw [he] at hn
    cases hn

theorem mono (h : TaskLog submitted written) (hs : ∀ t ∈ submitted, t ∈ submitted') :
    TaskLog submitted' written where
  record p hp hpre := by
    obtain ⟨hd, t, hv, hk, ht⟩ := h.record p hp hpre
    exact ⟨hd, t, hv, hk, hs _ ht⟩
  order := h.order

theorem append (h : TaskLog submitted written) (q : Str × Entry ℚ Str (Stored α))
    (hr : TASK_PREFIX <+: q.1 → q.2.deleted = false ∧
      ∃ t, q.2.value = .task t ∧ q.1 = TASK_PREFIX ++ t.id ∧ t.id ∈ submitted)
    (ho : ∀ p ∈ written, p.1 = q.1 → TASK_PREFIX <+: p.1 →
      isPending q.2.value = false ∧ (isPending p.2.value = true → p.2.version < q.2.version)) :
    TaskLog submitted (written ++ [q]) where
  record p hp := by
    rcases List.mem_append.1 hp with hp | hp
    · exact h.record p hp
    · rw [List.mem_singleton] at hp
      subst hp
      exact hr
  order := by
    rw [List.pairwise_append]
    refine ⟨h.order, List.pairwise_singleton _ _, ?_⟩
    intro p hp x hx
    rw [List.mem_singleton] at hx
    subst hx
    exact ho p hp

end TaskLog

/-- A node holds the record of every task that one of its loops still has in hand. -/
def Held (st : StoreSwarm ℚ Str Str (Stored α)) (threads : Str → List (EvalThread α)) : Prop :=
  ∀ n, ∀ th ∈ threads n, ∀ t, t ∈ th.rest ∨ t ∈ th.executing →
    ∃ e, (st.store n).data.get (TASK_PREFIX ++ t.id) = some e

theorem Held.step {threads : Str → List (EvalThread α)} (h : Held st threads)
    (hs : st.step a = some st') : Held st' threads := by
  intro n th hth t ht
  obtain ⟨e, he⟩ := h n th hth t ht
  obtain ⟨e', he', _⟩ := StoreSwarm.get_step hs he
  exact ⟨e', he'⟩

theorem mem_setThread {s : TaskSwarm α} (h : x ∈ (s.setThread n i u).threads m) :
    x ∈ s.threads m ∨ m = n ∧ x = u := by
  by_cases hm : m = n
  · subst hm
    simp only [TaskSwarm.setThread, Function.update_self] at h
    rcases List.mem_or_eq_of_mem_set h with h | rfl
    · exact .inl h
    · exact .inr ⟨rfl, rfl⟩
  · simp only [TaskSwarm.setThread, Function.update_of_ne hm] at h
    exact .inl h

theorem Held.setThread {s : TaskSwarm α} (h : Held st s.threads)
    (hi : (s.threads n)[i]? = some th)
    (hsub : ∀ t, t ∈ u.rest ∨ t ∈ u.executing → t ∈ th.rest ∨ t ∈ th.executing) :
    Held st (s.setThread n i u).threads := by
  intro m x hx t ht
  rcases mem_setThread hx with hx | ⟨rfl, rfl⟩
  · exact h m x hx t ht
  · exact h m th (List.mem_of_getElem? hi) t (hsub t ht)

theorem exists_of_mem_mapM {f : β → Option γ} {l : List β} (h : l.mapM f = some r)
    (hb : b ∈ r) : ∃ a ∈ l, f a = some b := by
  induction l generalizing r with
  | nil =>
    cases h
    cases hb
  | cons a l ih =>
    rw [List.mapM_cons] at h
    obtain ⟨c, hc, h⟩ := Option.bind_eq_some_iff.1 h
    obtain ⟨r', hr', h⟩ := Option.bind_eq_some_iff.1 h
    cases h
    rcases List.mem_cons.1 hb with rfl | hb
    · exact ⟨a, List.mem_cons_self, hc⟩
    · obtain ⟨a', ha', hf⟩ := ih hr' hb
      exact ⟨a', List.mem_cons_of_mem _ ha', hf⟩

theorem mem_tasks {st : TaskStore α} (h : TaskBoard.tasks st = some l) (ht : t ∈ l) :
    ∃ k e, st.data.get k = some e ∧ TASK_PREFIX <+: k ∧ e.value = .task t := by
  obtain ⟨p, hp, hr⟩ := exists_of_mem_mapM h ht
  obtain ⟨hp, hpre⟩ := List.mem_filter.1 hp
  obtain ⟨q, hq, rfl⟩ := List.mem_map.1 hp
  have hget := Dict.mem_items.1 (List.mem_filter.1 hq).1
  refine ⟨q.1, q.2, hget, List.isPrefixOf_iff_prefix.1 hpre, ?_⟩
  dsimp only at hr
  cases hv : q.2.value with
  | task t' =>
    rw [hv] at hr
    cases hr
    rfl
  | none => simp [hv, TaskBoard.fromStored] at hr
  | claim m ts => simp [hv, TaskBoard.fromStored] at hr
  | plain v => simp [hv, TaskBoard.fromStored] at hr

/-- What every run keeps whose steps meet the condition. -/
structure Ok (s : TaskSwarm α) : Prop where
  traced : s.stores.Traced
  log : TaskLog s.submitted s.stores.written
  held : Held s.stores s.threads

theorem Ok.init (grace : ℕ) : (TaskSwarm.init grace : TaskSwarm α).Ok where
  traced := .init
  log := ⟨(fun p hp => by cases hp), .nil⟩
  held n th hth := by cases hth

theorem Ok.of_eq {s s' : TaskSwarm α} (h : s.Ok) (hst : s'.stores = s.stores)
    (hsub : s'.submitted = s.submitted) (hh : Held s.stores s'.threads) : s'.Ok where
  traced := by
    rw [hst]
    exact h.traced
  log := by
    rw [hst, hsub]
    exact h.log
  held := by
    rw [hst]
    exact hh

theorem Ok.other {s s' : TaskSwarm α} (h : s.Ok) (hk : ¬ TASK_PREFIX <+: key)
    (hst : s.stores.step (.set n key value clock) = some s'.stores)
    (hsub : s'.submitted = s.submitted) (hh : Held s'.stores s'.threads) : s'.Ok where
  traced := h.traced.step hst
  log := by
    rw [StoreSwarm.written_set hst, hsub]
    apply h.log.append
    · intro hpre
      exact absurd hpre hk
    · intro p _ he hpre
      rw [he] at hpre
      exact absurd hpre hk
  held := hh

theorem Ok.submit {s s' : TaskSwarm α} (h : s.Ok) (hnew : t.id ∉ s.submitted)
    (hst : s.stores.step (.set n (TASK_PREFIX ++ t.id) (.task t) clock) = some s'.stores)
    (hsub : s'.submitted = s.submitted ++ [t.id]) (hth : s'.threads = s.threads) : s'.Ok where
  traced := h.traced.step hst
  log := by
    have hmono : TaskLog s'.submitted s.stores.written := by
      apply h.log.mono
      intro x hx
      rw [hsub]
      exact List.mem_append_left _ hx
    rw [StoreSwarm.written_set hst]
    apply hmono.append
    · intro _
      refine ⟨rfl, t, rfl, rfl, ?_⟩
      rw [hsub]
      exact List.mem_append_right _ List.mem_cons_self
    · rintro ⟨k, e⟩ hp rfl _
      exact absurd (h.log.submitted_of_mem hp) hnew
  held := by
    rw [hth]
    exact h.held.step hst

theorem Ok.finish {s s' : TaskSwarm α} (h : s.Ok) (hp : isPending (.task t) = false)
    (hc : (s.stores.store n).data.get (TASK_PREFIX ++ t.id) = some c)
    (hout : (s.stores.store n).Outdates (TASK_PREFIX ++ t.id) clock)
    (hst : s.stores.step (.set n (TASK_PREFIX ++ t.id) (.task t) clock) = some s'.stores)
    (hsub : s'.submitted = s.submitted) (hh : Held s'.stores s'.threads) : s'.Ok where
  traced := h.traced.step hst
  log := by
    have hlog := h.traced.prov.held n _ c hc
    have hlt := (DistributedStore.outdates_iff _ _ _).1 hout c hc
    rw [StoreSwarm.written_set hst, hsub]
    apply h.log.append
    · intro _
      exact ⟨rfl, t, rfl, rfl, h.log.submitted_of_mem hlog⟩
    · rintro ⟨k, e⟩ he rfl _
      refine ⟨hp, fun hpend => ?_⟩
      rcases h.log.pending_le he hlog hpend with rfl | ⟨hv, _⟩
      · exact hlt
      · exact hv.trans hlt
  held := hh

theorem Ok.replicate {s s' : TaskSwarm α} (h : s.Ok) (hst : s.stores.step a = some s'.stores)
    (hw : s'.stores.written = s.stores.written) (hsub : s'.submitted = s.submitted)
    (hth : s'.threads = s.threads) : s'.Ok where
  traced := h.traced.step hst
  log := by
    rw [hw, hsub]
    exact h.log
  held := by
    rw [hth]
    exact h.held.step hst

theorem not_prefix_claimKey (k : Str) : ¬ TASK_PREFIX <+: CLAIM_PREFIX ++ k := by
  rintro ⟨l, hl⟩
  simp [TASK_PREFIX, CLAIM_PREFIX] at hl

theorem claim_cases {s : TaskSwarm α} (h : s.claim n task clock load storeClock = some st) :
    st = s.stores ∨ ∃ key value, ¬ TASK_PREFIX <+: key ∧
      s.stores.step (.set n key value storeClock) = some st := by
  unfold TaskSwarm.claim TaskBoard.maybeClaim at h
  dsimp only at h
  split at h
  · exact .inl (Option.some.inj h).symm
  · rename_i key value hkv
    split at hkv
    · cases hkv
    · cases hkv
      refine .inr ⟨_, _, ?_, h⟩
      rw [List.append_assoc, List.append_assoc]
      exact not_prefix_claimKey _

theorem advance_cases {s : TaskSwarm α}
    (h : s.advance n i task rest clock load storeClock = some s') :
    (task.state ≠ .PENDING ∧
      s' = (s.setBoard n ((s.board n).forget task.id)).setThread n i ⟨rest, none⟩) ∨
    (task.state = .PENDING ∧ task.kind ∉ (s.board n).handlers ∧
      s' = s.setThread n i ⟨rest, none⟩) ∨
    (task.state = .PENDING ∧ task.kind ∈ (s.board n).handlers ∧ ∃ st claims b runs,
      s.claim n task clock load storeClock = some st ∧
      TaskBoard.claims (st.store n) task.id = some claims ∧
      (s.board n).settle claims task = (b, runs) ∧
      s' = ({ s with stores := st }.setBoard n b).setThread n i
        ⟨rest, if runs then some task else none⟩) := by
  unfold TaskSwarm.advance at h
  split at h
  · rename_i hstate
    cases h
    exact .inl ⟨hstate, rfl⟩
  · rename_i hstate
    rw [not_not] at hstate
    split at h
    · rename_i hkind
      cases h
      exact .inr (.inl ⟨hstate, hkind, rfl⟩)
    · rename_i hkind
      rw [not_not] at hkind
      obtain ⟨st, hst, h⟩ := Option.bind_eq_some_iff.1 h
      obtain ⟨claims, hcl, h⟩ := Option.bind_eq_some_iff.1 h
      cases h
      exact .inr (.inr ⟨hstate, hkind, st, claims, _, _, hst, hcl, rfl, rfl⟩)

/-- What each action does in a state where it is enabled. -/
inductive Stepped [PyNone α] (s : TaskSwarm α) : TaskAction α → TaskSwarm α → Prop
  | submit (n tid kind : Str) (args : α) (clock : ℚ) (hnew : tid ∉ s.submitted)
      (hst : s.stores.step
        (.set n (TASK_PREFIX ++ tid) (.task (TaskBoard.newTask n tid kind args)) clock) = some st) :
      Stepped s (.submit n tid kind args clock)
        { s with stores := st, submitted := s.submitted ++ [tid] }
  | registerHandler (n kind : Str) : Stepped s (.registerHandler n kind)
      (s.setBoard n { s.board n with handlers := kind :: (s.board n).handlers })
  | setLoadModel (n : Str) (weight : ℚ) : Stepped s (.setLoadModel n weight)
      (s.setBoard n { s.board n with loadWeight := some weight })
  | put (n key : Str) (value : α) (clock : ℚ) (htask : ¬ TASK_PREFIX <+: key)
      (hclaim : ¬ CLAIM_PREFIX <+: key)
      (hst : s.stores.step (.set n key (.plain value) clock) = some st) :
      Stepped s (.put n key value clock) { s with stores := st }
  | evaluate (n : Str) (htasks : TaskBoard.tasks (s.stores.store n) = some tasks) :
      Stepped s (.evaluate n)
        { s with threads := Function.update s.threads n (s.threads n ++ [⟨tasks, none⟩]) }
  | advance (n : Str) (i : ℕ) (clock load storeClock : ℚ)
      (hi : (s.threads n)[i]? = some ⟨task :: rest, none⟩)
      (hs : s.advance n i task rest clock load storeClock = some s') :
      Stepped s (.advance n i clock load storeClock) s'
  | finish (n : Str) (i : ℕ) (outcome : HandlerOutcome α) (clock : ℚ)
      (hi : (s.threads n)[i]? = some th) (htask : th.executing = some task)
      (hst : s.stores.step (.set n (TASK_PREFIX ++ task.id) (.task (task.ended n outcome)) clock) =
        some st) :
      Stepped s (.finish n i outcome clock) ({ s with stores := st }.setThread n i ⟨th.rest, none⟩)
  | digest (n : Str) (hst : s.stores.step (.digest n) = some st)
      (hw : st.written = s.stores.written) : Stepped s (.digest n) { s with stores := st }
  | mergeEntry (n : Str) (i : ℕ) (key : Str) (hst : s.stores.step (.mergeEntry n i key) = some st)
      (hw : st.written = s.stores.written) : Stepped s (.mergeEntry n i key) { s with stores := st }
  | applyDigest (n : Str) (i : ℕ) (hst : s.stores.step (.applyDigest n i) = some st)
      (hw : st.written = s.stores.written) : Stepped s (.applyDigest n i) { s with stores := st }

theorem stepped_of_step [PyNone α] {s : TaskSwarm α} (hs : s.step a = some s') :
    s.Stepped a s' := by
  cases a with
  | submit n tid kind args clock =>
    simp only [TaskSwarm.step] at hs
    split at hs
    · cases hs
    · rename_i hnew
      obtain ⟨st, hst, hs⟩ := Option.bind_eq_some_iff.1 hs
      cases hs
      exact .submit n tid kind args clock hnew hst
  | registerHandler n kind =>
    cases hs
    exact .registerHandler n kind
  | setLoadModel n weight =>
    cases hs
    exact .setLoadModel n weight
  | put n key value clock =>
    simp only [TaskSwarm.step] at hs
    split at hs
    · cases hs
    · rename_i hk
      obtain ⟨st, hst, hs⟩ := Option.bind_eq_some_iff.1 hs
      cases hs
      rw [not_or, List.isPrefixOf_iff_prefix, List.isPrefixOf_iff_prefix] at hk
      exact .put n key value clock hk.1 hk.2 hst
  | evaluate n =>
    obtain ⟨tasks, htasks, hs⟩ := Option.bind_eq_some_iff.1 hs
    cases hs
    exact .evaluate n htasks
  | advance n i clock load storeClock =>
    obtain ⟨⟨rest, executing⟩, hi, hs⟩ := Option.bind_eq_some_iff.1 hs
    cases rest with
    | nil => cases hs
    | cons task rest =>
      cases executing with
      | some t => cases hs
      | none => exact .advance n i clock load storeClock hi hs
  | finish n i outcome clock =>
    obtain ⟨th, hi, hs⟩ := Option.bind_eq_some_iff.1 hs
    obtain ⟨task, htask, hs⟩ := Option.bind_eq_some_iff.1 hs
    obtain ⟨st, hst, hs⟩ := Option.bind_eq_some_iff.1 hs
    cases hs
    exact .finish n i outcome clock hi htask hst
  | digest n =>
    cases hs
    exact .digest n rfl rfl
  | mergeEntry n i key =>
    obtain ⟨st, hst, hs⟩ := Option.bind_eq_some_iff.1 hs
    cases hs
    exact .mergeEntry n i key hst (StoreSwarm.written_mergeEntry hst)
  | applyDigest n i =>
    obtain ⟨st, hst, hs⟩ := Option.bind_eq_some_iff.1 hs
    cases hs
    exact .applyDigest n i hst (StoreSwarm.written_applyDigest hst)

theorem inHand_advanced {task : Task α} {rest : List (Task α)} (runs : Bool) (t : Task α)
    (h : t ∈ rest ∨ t ∈ if runs then some task else none) :
    t ∈ task :: rest ∨ t ∈ (none : Option (Task α)) := by
  rcases h with h | h
  · exact .inl (List.mem_cons_of_mem _ h)
  · cases runs with
    | false => cases h
    | true =>
      cases h
      exact .inl List.mem_cons_self

theorem Ok.advance {s : TaskSwarm α} (h : s.Ok)
    (hi : (s.threads n)[i]? = some ⟨task :: rest, none⟩)
    (hs : s.advance n i task rest clock load storeClock = some s') : s'.Ok := by
  rcases advance_cases hs with ⟨_, rfl⟩ | ⟨_, _, rfl⟩ | ⟨_, _, st, _, b, runs, hst, _, _, rfl⟩
  · exact h.of_eq rfl rfl (h.held.setThread (s := s.setBoard n _) hi (inHand_advanced false))
  · exact h.of_eq rfl rfl (h.held.setThread hi (inHand_advanced false))
  · have hin := @inHand_advanced α task rest runs
    rcases claim_cases hst with rfl | ⟨key, value, hk, hset⟩
    · exact h.of_eq rfl rfl (h.held.setThread (s := s.setBoard n b) hi hin)
    · exact h.other hk hset rfl
        ((h.held.step hset).setThread (s := { s with stores := st }.setBoard n b) hi hin)

theorem Ok.held_evaluate {s : TaskSwarm α} (h : s.Ok)
    (ht : TaskBoard.tasks (s.stores.store n) = some l) :
    Held s.stores (Function.update s.threads n (s.threads n ++ [⟨l, none⟩])) := by
  intro m th hth t htask
  by_cases hmn : m = n
  · subst hmn
    rw [Function.update_self] at hth
    rcases List.mem_append.1 hth with hth | hth
    · exact h.held m th hth t htask
    · rw [List.mem_singleton] at hth
      subst hth
      rcases htask with htask | htask
      · obtain ⟨k, e, he, hpre, hv⟩ := mem_tasks ht htask
        obtain ⟨_, t', hv', hk, _⟩ := h.log.record _ (h.traced.prov.held m k e he) hpre
        rw [hv] at hv'
        cases hv'
        rw [← hk]
        exact ⟨e, he⟩
      · cases htask
  · rw [Function.update_of_ne hmn] at hth
    exact h.held m th hth t htask

theorem Ok.step [PyNone α] {s : TaskSwarm α} (h : s.Ok) (hm : s.Meets a)
    (hs : s.step a = some s') : s'.Ok := by
  cases stepped_of_step hs with
  | submit n tid kind args clock hnew hst =>
    exact h.submit (t := TaskBoard.newTask n tid kind args) hnew hst rfl rfl
  | registerHandler => exact h.of_eq rfl rfl h.held
  | setLoadModel => exact h.of_eq rfl rfl h.held
  | put n key value clock htask _ hst => exact h.other htask hst rfl (h.held.step hst)
  | evaluate n htasks => exact h.of_eq rfl rfl (h.held_evaluate htasks)
  | advance n i clock load storeClock hi hadv => exact h.advance hi hadv
  | @finish th task st n i outcome clock hi ht hst =>
    have hid : (task.ended n outcome).id = task.id := by cases outcome <;> rfl
    obtain ⟨c, hc⟩ := h.held n th (List.mem_of_getElem? hi) task (.inr ht)
    have hout := hm th hi task ht
    rw [← hid] at hc hout hst
    have hheld := (h.held.step hst).setThread (s := { s with stores := st })
      (u := ⟨th.rest, none⟩) hi (fun t ht' => ht'.imp_right (fun ht' => by cases ht'))
    exact h.finish (isPending_ended task n outcome) hc hout hst rfl hheld
  | digest n hst hw => exact h.replicate hst hw rfl rfl
  | mergeEntry n i key hst hw => exact h.replicate hst hw rfl rfl
  | applyDigest n i hst hw => exact h.replicate hst hw rfl rfl

theorem Ok.of_run [PyNone α] {s : TaskSwarm α}
    (h : Run TaskSwarm.step (TaskSwarm.init grace) past s) (hm : ∀ p ∈ past, p.1.Meets p.2) :
    s.Ok :=
  h.invariant hm (Ok.init grace) (fun _ _ _ hs hc hstep => hs.step hc hstep)

theorem stores_step [PyNone α] {s : TaskSwarm α} (hs : s.step a = some s') :
    s'.stores = s.stores ∨ ∃ b, s.stores.step b = some s'.stores := by
  cases stepped_of_step hs with
  | submit _ _ _ _ _ _ hst => exact .inr ⟨_, hst⟩
  | registerHandler => exact .inl rfl
  | setLoadModel => exact .inl rfl
  | put _ _ _ _ _ _ hst => exact .inr ⟨_, hst⟩
  | evaluate => exact .inl rfl
  | advance n i clock load storeClock hi hadv =>
    rcases advance_cases hadv with ⟨_, rfl⟩ | ⟨_, _, rfl⟩ | ⟨_, _, st, _, b, runs, hst, _, _, rfl⟩
    · exact .inl rfl
    · exact .inl rfl
    · rcases claim_cases hst with rfl | ⟨key, value, _, hset⟩
      · exact .inl rfl
      · exact .inr ⟨_, hset⟩
  | finish _ _ _ _ _ _ hst => exact .inr ⟨_, hst⟩
  | digest _ hst => exact .inr ⟨_, hst⟩
  | mergeEntry _ _ _ hst => exact .inr ⟨_, hst⟩
  | applyDigest _ _ hst => exact .inr ⟨_, hst⟩

/-- Node `n` holds a terminal record of the task. -/
def Terminal (s : TaskSwarm α) (n tid : Str) : Prop :=
  ∃ e, (s.stores.store n).data.get (TASK_PREFIX ++ tid) = some e ∧ isPending e.value = false

theorem Terminal.step [PyNone α] {s : TaskSwarm α} (ht : s.Terminal n tid) (h : s.Ok)
    (h' : s'.Ok) (hs : s.step a = some s') : s'.Terminal n tid := by
  obtain ⟨e, he, hp⟩ := ht
  rcases stores_step hs with heq | ⟨b, hb⟩
  · exact ⟨e, by rw [heq]; exact he, hp⟩
  · obtain ⟨e', he', hcase⟩ := StoreSwarm.get_step hb he
    refine ⟨e', he', ?_⟩
    have hlog' := h'.traced.prov.held n _ e' he'
    have hlog := h.traced.prov.held n _ e he
    rcases hcase with hle | hw
    · by_contra hpend
      rw [Bool.not_eq_false] at hpend
      have hmem : (TASK_PREFIX ++ tid, e) ∈ s'.stores.written :=
        StoreSwarm.written_mono hb _ hlog
      rcases h'.log.pending_le hlog' hmem hpend with rfl | ⟨hlt, _⟩
      · rw [hp] at hpend
        cases hpend
      · exact absurd hle (not_le.2 hlt)
    · have hord := h'.log.order
      rw [hw, List.pairwise_append] at hord
      have hlast := hord.2.2 _ hlog _ List.mem_cons_self
      exact (hlast rfl (List.prefix_append _ _)).1

theorem Terminal.getTask {s : TaskSwarm α} (ht : s.Terminal n tid) (h : s.Ok) :
    ∃ t, TaskBoard.getTask (s.stores.store n) tid = some t ∧ t.state ≠ .PENDING := by
  obtain ⟨e, he, hp⟩ := ht
  obtain ⟨hd, t, hv, _, _⟩ := h.log.record _ (h.traced.prov.held n _ e he)
    (List.prefix_append _ _)
  dsimp only at hd hv
  refine ⟨t, ?_, ?_⟩
  · simp [TaskBoard.getTask, DistributedStore.get, he, hd, hv, TaskBoard.fromStored]
  · simpa [hv, isPending] using hp

theorem terminal_of_getTask {s : TaskSwarm α}
    (ht : TaskBoard.getTask (s.stores.store n) tid = some t) (hs : t.state ≠ .PENDING) :
    s.Terminal n tid := by
  unfold TaskBoard.getTask DistributedStore.get at ht
  cases he : (s.stores.store n).data.get (TASK_PREFIX ++ tid) with
  | none => simp [he, TaskBoard.fromStored] at ht
  | some e =>
    refine ⟨e, he, ?_⟩
    rw [he] at ht
    dsimp only at ht
    split at ht
    · cases ht
    · cases hv : e.value with
      | task t' =>
        rw [hv] at ht
        cases ht
        simpa [isPending] using hs
      | none => rfl
      | claim m ts => rfl
      | plain v => rfl

theorem terminal_finish [PyNone α] {s : TaskSwarm α}
    (hs : s.step (.finish n i outcome clock) = some s')
    (hi : (s.threads n)[i]? = some th) (ht : th.executing = some task) :
    s'.Terminal n task.id := by
  simp only [TaskSwarm.step, hi, ht, Option.bind_eq_bind, Option.bind_some] at hs
  obtain ⟨st, hst, hs⟩ := Option.bind_eq_some_iff.1 hs
  cases hs
  cases hst
  refine ⟨((s.stores.store n).set (TASK_PREFIX ++ task.id) (.task (task.ended n outcome))
    clock).result, ?_, isPending_ended task n outcome⟩
  simp only [TaskSwarm.setThread, StoreSwarm.wrote, Function.update_self]
  exact Dict.get_set_self _ _ _

end TaskSwarm

/-- While the record that a handler's end writes is newer than the record it replaces, a store
that has shown a task as done or failed shows it so for ever, and the end of a handler makes its
node's store show the task so. -/
theorem terminal_states_stable [PyNone α] {s s' : TaskSwarm α}
    (h : Run TaskSwarm.step (TaskSwarm.init grace) past s)
    (h' : Run TaskSwarm.step s past' s') (hm : ∀ p ∈ past' ++ past, p.1.Meets p.2) :
    (∀ n tid t, TaskBoard.getTask (s.stores.store n) tid = some t → t.state ≠ .PENDING →
      ∃ t', TaskBoard.getTask (s'.stores.store n) tid = some t' ∧ t'.state ≠ .PENDING) ∧
    (∀ u n i outcome clock th task, (u, .finish n i outcome clock) ∈ past' →
      (u.threads n)[i]? = some th → th.executing = some task →
      ∃ t', TaskBoard.getTask (s'.stores.store n) task.id = some t' ∧ t'.state ≠ .PENDING) := by
  have hstable : ∀ {u u' : TaskSwarm α} {p p'} (n tid : Str),
      Run TaskSwarm.step (TaskSwarm.init grace) p u → Run TaskSwarm.step u p' u' →
      (∀ q ∈ p' ++ p, q.1.Meets q.2) → u.Terminal n tid → u'.Ok ∧ u'.Terminal n tid := by
    intro u u' p p' n tid hu hu' hmeets hterm
    have hok := TaskSwarm.Ok.of_run hu
      (fun q hq => hmeets q (List.mem_append_right _ hq))
    apply hu'.invariant (I := fun v => v.Ok ∧ v.Terminal n tid)
      (fun q hq => hmeets q (List.mem_append_left _ hq)) ⟨hok, hterm⟩
    intro v a v' hv hc hstep
    have hv' := hv.1.step hc hstep
    exact ⟨hv', hv.2.step hv.1 hv' hstep⟩
  constructor
  · intro n tid t ht hs
    obtain ⟨hok, hterm⟩ := hstable n tid h h' hm (TaskSwarm.terminal_of_getTask ht hs)
    exact hterm.getTask hok
  · intro u n i outcome clock th task hu hi hexec
    obtain ⟨pre, post, u', hpast, hpre, hstep, hpost⟩ := h'.of_mem_past hu
    have hterm := TaskSwarm.terminal_finish hstep hi hexec
    have hrun := (h.append hpre).next hstep
    have hall : ∀ q ∈ post ++ ((u, .finish n i outcome clock) :: (pre ++ past)),
        q.1.Meets q.2 := by
      intro q hq
      apply hm q
      rw [hpast]
      simpa [List.append_assoc] using hq
    obtain ⟨hok, hterm'⟩ := hstable n task.id hrun hpost hall hterm
    exact hterm'.getTask hok

/-- Node `b` submits a task at time 100; node `a`, whose clock shows `clock`, takes it in and
executes it in its third round. -/
def executedAt (clock : ℚ) : List (TaskAction (Option ℕ)) :=
  [.registerHandler ['a'] ['k'], .submit ['b'] ['t'] ['k'] none 100, .digest ['b'],
    .applyDigest ['a'] 0, .evaluate ['a'], .advance ['a'] 0 clock 0 clock,
    .evaluate ['a'], .advance ['a'] 1 clock 0 clock,
    .evaluate ['a'], .advance ['a'] 2 clock 0 clock,
    .finish ['a'] 2 (.returned (some 42)) clock]

/-- What node `a` shows of the task. -/
def shownState (s : TaskSwarm (Option ℕ)) : Option TaskState :=
  (TaskBoard.getTask (s.stores.store ['a']) ['t']).map Task.state

theorem terminal_states_stable_in_step :
    ∃ past past', ∃ s s' : TaskSwarm (Option ℕ),
      Run TaskSwarm.step (TaskSwarm.init 3) past s ∧ Run TaskSwarm.step s past' s' ∧
      shownState s = some .DONE ∧
      ∃ t', TaskBoard.getTask (s'.stores.store ['a']) ['t'] = some t' ∧ t'.state ≠ .PENDING := by
  obtain ⟨past, s, hr, hm, hs⟩ := exists_run_of_execWhere TaskSwarm.step TaskSwarm.Meets
    (TaskSwarm.init 3) (executedAt 101)
    (fun s => (shownState s, (s.step (.applyDigest ['a'] 0)).isSome)) (some .DONE, true)
    (by decide +kernel)
  obtain ⟨hshown, hstep⟩ := Prod.mk.inj hs
  obtain ⟨s', hs'⟩ := Option.isSome_iff_exists.1 hstep
  obtain ⟨t, ht, hstate⟩ := Option.map_eq_some_iff.1 hshown
  have hmeets : ∀ p ∈ [(s, .applyDigest ['a'] 0)] ++ past, p.1.Meets p.2 := by
    intro p hp
    rcases List.mem_append.1 hp with hp | hp
    · rw [List.mem_singleton] at hp
      subst hp
      trivial
    · exact hm p hp
  have hrun := Run.start.next hs'
  exact ⟨past, _, s, s', hr, hrun, hshown,
    (terminal_states_stable hr hrun hmeets).1 _ _ t ht (by rw [hstate]; decide)⟩

/-- With a clock that lags behind, the result of `a` gets a lower version than the pending
record of `b`, which replaces it when it is delivered once more. -/
theorem lagging_result_is_lost :
    ∃ past past', ∃ s s' : TaskSwarm (Option ℕ),
      Run TaskSwarm.step (TaskSwarm.init 3) past s ∧ Run TaskSwarm.step s past' s' ∧
      shownState s = some .DONE ∧ shownState s' = some .PENDING := by
  obtain ⟨past, s, hr, hs⟩ := exists_run_of_exec TaskSwarm.step (TaskSwarm.init 3)
    (executedAt 5) (fun s => (shownState s, (s.step (.applyDigest ['a'] 0)).map shownState))
    (some .DONE, some (some .PENDING)) (by decide +kernel)
  obtain ⟨hshown, hstep⟩ := Prod.mk.inj hs
  obtain ⟨s', hs', hpending⟩ := Option.map_eq_some_iff.1 hstep
  exact ⟨past, _, s, s', hr, Run.start.next hs', hshown, hpending⟩

end Suprime
