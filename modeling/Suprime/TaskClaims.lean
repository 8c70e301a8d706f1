import Mathlib.Data.Set.List
import Suprime.TaskSwarm

namespace Suprime
set_option autoImplicit true

def TaskAction.node : TaskAction α → Str
  | .submit n .. => n
  | .registerHandler n _ => n
  | .setLoadModel n _ => n
  | .put n .. => n
  | .evaluate n => n
  | .advance n .. => n
  | .finish n .. => n
  | .digest n => n
  | .mergeEntry n .. => n
  | .applyDigest n _ => n

/-- The handler that was called by a step, from the state after it. -/
def TaskSwarm.calls (s' : TaskSwarm α) : TaskAction α → List (Str × Str)
  | .advance n i .. =>
    match (s'.threads n)[i]? with
    | some ⟨_, some task⟩ => [(n, task.id)]
    | _ => []
  | _ => []

/-- Task boards whose nodes may crash for good, with every call of a handler so far: the node and
the id of the task. -/
structure TaskCluster (α : Type) where
  swarm : TaskSwarm α
  crashed : List Str
  called : List (Str × Str)

/-- Steps of the boards, where `resubmit` publishes an id that may have been published before. -/
inductive ClusterAction (α : Type)
  | act (a : TaskAction α)
  | resubmit (n tid kind : Str) (args : α) (clock : ℚ)
  | crash (n : Str)

namespace TaskCluster

variable {α : Type} [PyNone α]

def init (claimGraceRounds : ℕ) : TaskCluster α := ⟨.init claimGraceRounds, [], []⟩

def step (c : TaskCluster α) : ClusterAction α → Option (TaskCluster α)
  | .act a =>
    if a.node ∈ c.crashed then none
    else (c.swarm.step a).map (fun s => { c with swarm := s, called := c.called ++ s.calls a })
  | .resubmit n tid kind args clock =>
    if n ∈ c.crashed then none
    else (c.swarm.stores.step
      (.set n (TASK_PREFIX ++ tid) (.task (TaskBoard.newTask n tid kind args)) clock)).map
        (fun stores => { c with
          swarm := { c.swarm with stores, submitted := c.swarm.submitted ++ [tid] } })
  | .crash n => some { c with crashed := n :: c.crashed }

end TaskCluster

def ClusterAction.Slashless : ClusterAction α → Prop
  | .act (.submit _ tid ..) => '/' ∉ tid
  | .resubmit _ tid .. => '/' ∉ tid
  | _ => True

instance : (a : ClusterAction α) → Decidable a.Slashless
  | .act (.submit _ tid ..) => inferInstanceAs (Decidable ('/' ∉ tid))
  | .resubmit _ tid .. => inferInstanceAs (Decidable ('/' ∉ tid))
  | .crash _ => isTrue trivial
  | .act (.registerHandler ..) => isTrue trivial
  | .act (.setLoadModel ..) => isTrue trivial
  | .act (.put ..) => isTrue trivial
  | .act (.evaluate ..) => isTrue trivial
  | .act (.advance ..) => isTrue trivial
  | .act (.finish ..) => isTrue trivial
  | .act (.digest ..) => isTrue trivial
  | .act (.mergeEntry ..) => isTrue trivial
  | .act (.applyDigest ..) => isTrue trivial

/-- The key under which node `n` claims a task. -/
def claimKey (tid n : Str) : Str := CLAIM_PREFIX ++ tid ++ ['/'] ++ n

theorem eq_of_slash {t t' x x' : Str} (ht : '/' ∉ t) (ht' : '/' ∉ t')
    (h : t ++ '/' :: x = t' ++ '/' :: x') : t = t' ∧ x = x' := by
  induction t generalizing t' with
  | nil =>
    cases t' with
    | nil => exact ⟨rfl, (List.cons.inj h).2⟩
    | cons c t' => exact absurd ((List.cons.inj h).1 ▸ List.mem_cons_self) ht'
  | cons c t ih =>
    cases t' with
    | nil => exact absurd ((List.cons.inj h).1 ▸ List.mem_cons_self) ht
    | cons c' t' =>
      obtain ⟨hc, htail⟩ := List.cons.inj h
      obtain ⟨rfl, hx⟩ := ih (fun hm => ht (List.mem_cons_of_mem _ hm))
        (fun hm => ht' (List.mem_cons_of_mem _ hm)) htail
      exact ⟨by rw [hc], hx⟩

theorem claimKey_eq (tid n : Str) : claimKey tid n = CLAIM_PREFIX ++ (tid ++ '/' :: n) := by
  simp [claimKey]

theorem claimKey_inj {t t' n n' : Str} (ht : '/' ∉ t) (ht' : '/' ∉ t')
    (h : claimKey t n = claimKey t' n') : t = t' ∧ n = n' := by
  rw [claimKey_eq, claimKey_eq] at h
  exact eq_of_slash ht ht' (List.append_cancel_left h)

theorem prefix_claimKey (tid n : Str) : CLAIM_PREFIX <+: claimKey tid n := by
  rw [claimKey_eq]
  exact List.prefix_append _ _

theorem eq_of_prefix_claimKey {t t' n : Str} (ht : '/' ∉ t) (ht' : '/' ∉ t')
    (h : CLAIM_PREFIX ++ t ++ ['/'] <+: claimKey t' n) : t' = t := by
  obtain ⟨x, hx⟩ := h
  exact (claimKey_inj ht ht' hx).1.symm

theorem not_task_claimKey (tid n : Str) : ¬ TASK_PREFIX <+: claimKey tid n := by
  rw [claimKey_eq]
  exact TaskSwarm.not_prefix_claimKey _

theorem not_claim_taskKey (k : Str) : ¬ CLAIM_PREFIX <+: TASK_PREFIX ++ k := by
  intro h
  obtain ⟨l, hl⟩ := h
  simp [TASK_PREFIX, CLAIM_PREFIX] at hl

namespace TaskBoard

theorem maybeExecute_fields {b b' : TaskBoard} {task : Task α}
    {d : Dict Str ℚ} (h : b.maybeExecute d task = (b', runs)) :
    b'.nodeId = b.nodeId ∧ b'.claimGraceRounds = b.claimGraceRounds ∧
      b'.handlers = b.handlers ∧
      b'.executed = (if runs then task.id :: b.executed else b.executed) ∧
      (runs = true → task.id ∉ b.executed ∧ winner d = some b.nodeId) := by
  unfold maybeExecute at h
  split at h
  · cases h
    exact ⟨rfl, rfl, rfl, rfl, fun hr => by cases hr⟩
  · rename_i hn
    rw [not_or, not_not] at hn
    cases h
    exact ⟨rfl, rfl, rfl, rfl, fun _ => hn⟩

theorem settle_fields {b b' : TaskBoard} {task : Task α}
    {d : Dict Str ℚ} (h : b.settle d task = (b', runs)) :
    b'.nodeId = b.nodeId ∧ b'.claimGraceRounds = b.claimGraceRounds ∧
      b'.handlers = b.handlers ∧
      b'.executed = (if runs then task.id :: b.executed else b.executed) ∧
      (runs = true → task.id ∉ b.executed ∧ winner d = some b.nodeId) := by
  unfold settle at h
  dsimp only at h
  split at h
  · cases h
    exact ⟨rfl, rfl, rfl, rfl, fun hr => by cases hr⟩
  · obtain ⟨hn, hg, hh, he, hr⟩ := maybeExecute_fields h
    exact ⟨hn, hg, hh, he, hr⟩

/-- What a board keeps through every step. -/
structure Grows (b b' : TaskBoard) : Prop where
  nodeId : b'.nodeId = b.nodeId
  grace : b'.claimGraceRounds = b.claimGraceRounds
  handlers : ∀ kind ∈ b.handlers, kind ∈ b'.handlers
  executed : ∀ tid ∈ b.executed, tid ∈ b'.executed

theorem Grows.refl (b : TaskBoard) : b.Grows b := ⟨rfl, rfl, fun _ h => h, fun _ h => h⟩

theorem Grows.trans {b₁ b₂ b₃ : TaskBoard} (h : b₁.Grows b₂) (h' : b₂.Grows b₃) : b₁.Grows b₃ :=
  ⟨h'.nodeId.trans h.nodeId, h'.grace.trans h.grace,
    fun kind hk => h'.handlers kind (h.handlers kind hk),
    fun tid ht => h'.executed tid (h.executed tid ht)⟩

theorem Grows.settle {b b' : TaskBoard} {task : Task α} {d : Dict Str ℚ}
    (h : b.settle d task = (b', runs)) : b.Grows b' := by
  obtain ⟨hn, hg, hh, he, _⟩ := settle_fields h
  refine ⟨hn, hg, fun kind hk => hh ▸ hk, fun tid ht => ?_⟩
  rw [he]
  split
  · exact List.mem_cons_of_mem _ ht
  · exact ht

theorem winner_spec {d : Dict Str ℚ} : winner d = some n ↔
    ∃ ts, d.get n = some ts ∧ ∀ m ts', d.get m = some ts' → toLex (ts, n) ≤ toLex (ts', m) := by
  unfold winner
  constructor
  · intro h
    obtain ⟨⟨m, ts⟩, hmin, rfl⟩ := Option.map_eq_some_iff.1 h
    refine ⟨ts, Dict.mem_items.1 (List.argmin_mem hmin), fun m' ts' hm => ?_⟩
    have hmem : (m', ts') ∈ d.items := Dict.mem_items.2 hm
    have hle := List.le_of_mem_argmin hmem hmin
    exact hle
  · rintro ⟨ts, hn, hle⟩
    cases hmin : d.items.argmin (fun kv => toLex (kv.2, kv.1)) with
    | none =>
      have hmem := Dict.mem_items.2 hn
      rw [List.argmin_eq_none.1 hmin] at hmem
      cases hmem
    | some kv =>
      have h₁ := hle kv.1 kv.2 (Dict.mem_items.1 (List.argmin_mem hmin))
      have h₂ := List.le_of_mem_argmin (Dict.mem_items.2 hn) hmin
      have heq := toLex.injective (h₁.antisymm h₂)
      rw [Option.map_some, (Prod.mk.inj heq).2]

end TaskBoard

namespace TaskSwarm

variable {α : Type}

theorem threads_setThread {s : TaskSwarm α} (hi : (s.threads n)[i]? = some th) :
    ((s.setThread n i u).threads n)[i]? = some u := by
  obtain ⟨hlt, _⟩ := List.getElem?_eq_some_iff.1 hi
  simp [TaskSwarm.setThread, hlt]

theorem calls_setThread {s : TaskSwarm α} (hi : (s.threads n)[i]? = some th) :
    (s.setThread n i u).calls (.advance n i clock load storeClock) =
      (u.executing.map (fun t => (n, t.id))).toList := by
  have hget := threads_setThread (u := u) hi
  obtain ⟨r, e⟩ := u
  cases e with
  | none => simp only [calls, hget, Option.map_none, Option.toList_none]
  | some t => simp only [calls, hget, Option.map_some, Option.toList_some]

/-- What a step can make of a board. -/
inductive BoardStep (α : Type) (b : TaskBoard) : Option Str → TaskBoard → Prop
  | same : BoardStep α b kind b
  | register : BoardStep α b (some kind) { b with handlers := kind :: b.handlers }
  | load : BoardStep α b none { b with loadWeight := some weight }
  | forget : BoardStep α b none (b.forget tid)
  | settle {task : Task α} : b.settle d task = (b', runs) → BoardStep α b none b'

theorem BoardStep.setBoard {s : TaskSwarm α} (h : BoardStep α (s.board n) kind b) (m : Str) :
    BoardStep α (s.board m) (if m = n then kind else none) ((s.setBoard n b).board m) := by
  by_cases hm : m = n
  · subst hm
    rw [if_pos rfl]
    simpa only [TaskSwarm.setBoard, Function.update_self] using h
  · rw [if_neg hm]
    simpa only [TaskSwarm.setBoard, Function.update_of_ne hm] using .same

/-- The kind for which an action registers a handler at a node. -/
def registered (m : Str) : TaskAction α → Option Str
  | .registerHandler n kind => if m = n then some kind else none
  | _ => none

theorem boardStep_advance {s : TaskSwarm α}
    (hs : s.advance n i task rest clock load storeClock = some s') (m : Str) :
    BoardStep α (s.board m) none (s'.board m) := by
  rcases advance_cases hs with ⟨_, rfl⟩ | ⟨_, _, rfl⟩ | ⟨_, _, st, _, b, runs, _, _, hb, rfl⟩
  · have hforget : BoardStep α (s.board n) none ((s.board n).forget task.id) := .forget
    have hstep := hforget.setBoard m
    rwa [ite_self] at hstep
  · exact .same
  · have hstep := BoardStep.setBoard (s := s) (.settle hb) m
    rwa [ite_self] at hstep

theorem boardStep [PyNone α] {s : TaskSwarm α} (hs : s.step a = some s') (m : Str) :
    BoardStep α (s.board m) (registered m a) (s'.board m) := by
  cases stepped_of_step hs with
  | submit => exact .same
  | registerHandler => exact BoardStep.setBoard .register m
  | setLoadModel n weight =>
    have hload : BoardStep α (s.board n) none { s.board n with loadWeight := some weight } := .load
    have hstep := hload.setBoard m
    rwa [ite_self] at hstep
  | put => exact .same
  | evaluate => exact .same
  | advance _ _ _ _ _ _ hadv => exact boardStep_advance hadv m
  | finish => exact .same
  | digest => exact .same
  | mergeEntry => exact .same
  | applyDigest => exact .same

theorem BoardStep.grows {b b' : TaskBoard} (h : BoardStep α b kind b') : b.Grows b' := by
  cases h with
  | same => exact .refl b
  | register => exact ⟨rfl, rfl, fun _ h => List.mem_cons_of_mem _ h, fun _ h => h⟩
  | load => exact ⟨rfl, rfl, fun _ h => h, fun _ h => h⟩
  | forget => exact ⟨rfl, rfl, fun _ h => h, fun _ h => h⟩
  | settle hb => exact .settle hb

theorem BoardStep.handlers {b b' : TaskBoard} (h : BoardStep α b kind b')
    (hk : k ∈ b'.handlers) : k ∈ b.handlers ∨ kind = some k := by
  cases h with
  | same => exact .inl hk
  | register =>
    rcases List.mem_cons.1 hk with rfl | hk
    · exact .inr rfl
    · exact .inl hk
  | load => exact .inl hk
  | forget => exact .inl hk
  | settle hb => exact .inl ((TaskBoard.settle_fields hb).2.2.1 ▸ hk)

theorem grows_step [PyNone α] {s : TaskSwarm α} (hs : s.step a = some s') (m : Str) :
    (s.board m).Grows (s'.board m) :=
  (boardStep hs m).grows

theorem ended_id (t : Task α) (n : Str) (o : HandlerOutcome α) : (t.ended n o).id = t.id := by
  cases o <;> rfl

/-- An undeleted claim of node `m` on a task, as a store holds it. -/
def HoldsClaim (s : TaskSwarm α) (n tid m : Str) (ts : ℚ) : Prop :=
  ∃ e, (s.stores.store n).data.get (claimKey tid m) = some e ∧ e.value = .claim m ts

theorem nodup_items (st : TaskStore α) : (st.items.map Prod.fst).Nodup := by
  rw [DistributedStore.items, List.map_map]
  exact (List.filter_sublist.map _).nodup st.data.nodup

theorem mapM_map {f : γ → Option β} {g : β → γ} (h : ∀ b, f (g b) = some b) (l : List β) :
    (l.map g).mapM f = some l := by
  induction l with
  | nil => rfl
  | cons b l ih =>
    rw [List.map_cons, List.mapM_cons, h, ih]
    rfl

end TaskSwarm

namespace TaskCluster

variable {α : Type} [PyNone α]

theorem step_cases {c c' : TaskCluster α} (h : c.step a = some c') :
    (∃ b s, a = .act b ∧ b.node ∉ c.crashed ∧ c.swarm.step b = some s ∧
      c' = { c with swarm := s, called := c.called ++ s.calls b }) ∨
    (∃ n tid kind args clock stores, a = .resubmit n tid kind args clock ∧ n ∉ c.crashed ∧
      c.swarm.stores.step (.set n (TASK_PREFIX ++ tid)
        (.task (TaskBoard.newTask n tid kind args)) clock) = some stores ∧
      c' = { c with swarm := { c.swarm with
        stores := stores
        submitted := c.swarm.submitted ++ [tid] } }) ∨
    ∃ n, a = .crash n ∧ c' = { c with crashed := n :: c.crashed } := by
  cases a with
  | act b =>
    simp only [step] at h
    split at h
    · cases h
    · rename_i hn
      obtain ⟨s, hs, rfl⟩ := Option.map_eq_some_iff.1 h
      exact .inl ⟨b, s, rfl, hn, hs, rfl⟩
  | resubmit n tid kind args clock =>
    simp only [step] at h
    split at h
    · cases h
    · rename_i hn
      obtain ⟨st, hst, rfl⟩ := Option.map_eq_some_iff.1 h
      exact .inr (.inl ⟨n, tid, kind, args, clock, st, rfl, hn, hst, rfl⟩)
  | crash n =>
    cases h
    exact .inr (.inr ⟨n, rfl, rfl⟩)

end TaskCluster

/-- The ids that are submitted and the nodes that may claim them, such that no claim has a key with
the prefix of another task. -/
structure Naming where
  ids : Str → Prop
  claims : Str → Str → Prop
  ids_of_claims : claims tid n → ids tid
  apart : claims tid n → ids t → CLAIM_PREFIX ++ t ++ ['/'] <+: claimKey tid n → t = tid

namespace Naming

variable {N : Naming}

theorem claimKey_inj (h : N.claims t n) (h' : N.claims t' n')
    (he : claimKey t n = claimKey t' n') : t = t' ∧ n = n' := by
  have ht : t = t' := by
    apply N.apart h' (N.ids_of_claims h)
    rw [← he]
    exact List.prefix_append _ _
  subst ht
  exact ⟨rfl, List.append_cancel_left he⟩

/-- What every run writes: tasks and claims under their own keys, and each claim once. -/
structure Log (N : Naming) (written : List (Str × Entry ℚ Str (Stored α))) : Prop where
  record : ∀ p ∈ written, TASK_PREFIX <+: p.1 → p.2.deleted = false ∧
    ∃ t, p.2.value = .task t ∧ p.1 = TASK_PREFIX ++ t.id ∧ N.ids t.id
  claim : ∀ p ∈ written, CLAIM_PREFIX <+: p.1 → p.2.deleted = false ∧
    ∃ tid n ts, N.claims tid n ∧ p.1 = claimKey tid n ∧ p.2.value = .claim n ts
  once : ∀ p ∈ written, ∀ q ∈ written, CLAIM_PREFIX <+: p.1 → p.1 = q.1 → p = q

theorem Log.append {written : List (Str × Entry ℚ Str (Stored α))} (h : N.Log written)
    (hr : TASK_PREFIX <+: q.1 → q.2.deleted = false ∧
      ∃ t, q.2.value = .task t ∧ q.1 = TASK_PREFIX ++ t.id ∧ N.ids t.id)
    (hc : CLAIM_PREFIX <+: q.1 → q.2.deleted = false ∧
      ∃ tid n ts, N.claims tid n ∧ q.1 = claimKey tid n ∧ q.2.value = .claim n ts)
    (ho : CLAIM_PREFIX <+: q.1 → ∀ p ∈ written, p.1 ≠ q.1) : N.Log (written ++ [q]) where
  record p hp := by
    rcases List.mem_append.1 hp with hp | hp
    · exact h.record p hp
    · rw [List.mem_singleton.1 hp]
      exact hr
  claim p hp := by
    rcases List.mem_append.1 hp with hp | hp
    · exact h.claim p hp
    · rw [List.mem_singleton.1 hp]
      exact hc
  once p hp p' hp' hpre he := by
    rcases List.mem_append.1 hp with hp | hp <;> rcases List.mem_append.1 hp' with hp' | hp'
    · exact h.once p hp p' hp' hpre he
    · rw [List.mem_singleton.1 hp'] at he
      exact absurd he (ho (he ▸ hpre) p hp)
    · rw [List.mem_singleton.1 hp] at he hpre
      exact absurd he.symm (ho hpre p' hp')
    · rw [List.mem_singleton.1 hp, List.mem_singleton.1 hp']

variable {α : Type}

/-- Every task that a loop of a node has in hand has one of the ids. -/
def InHand (N : Naming) (threads : Str → List (EvalThread α)) : Prop :=
  ∀ n, ∀ th ∈ threads n, ∀ t, t ∈ th.rest ∨ t ∈ th.executing → N.ids t.id

theorem InHand.setThread {s : TaskSwarm α} (h : N.InHand s.threads)
    (hi : (s.threads n)[i]? = some th)
    (hsub : ∀ t, t ∈ u.rest ∨ t ∈ u.executing → t ∈ th.rest ∨ t ∈ th.executing) :
    N.InHand (s.setThread n i u).threads := by
  intro m x hx t ht
  rcases TaskSwarm.mem_setThread hx with hx | ⟨rfl, rfl⟩
  · exact h m x hx t ht
  · exact h m th (List.mem_of_getElem? hi) t (hsub t ht)

/-- What every run keeps whose tasks and claims are those of the naming. -/
structure Kept (N : Naming) (s : TaskSwarm α) : Prop where
  traced : s.stores.Traced
  log : N.Log s.stores.written
  own : ∀ tid n e, N.claims tid n → (claimKey tid n, e) ∈ s.stores.written →
    (s.stores.store n).data.get (claimKey tid n) = some e
  nodeId : ∀ n, (s.board n).nodeId = n
  ids : N.InHand s.threads

/-- The write of node `n` is one that task boards or the application make. -/
inductive Writes (N : Naming) (s : TaskSwarm α) (n : Str) : Str → Stored α → Prop
  | plain : ¬ TASK_PREFIX <+: key → ¬ CLAIM_PREFIX <+: key → Writes N s n key value
  | record : N.ids t.id → Writes N s n (TASK_PREFIX ++ t.id) (.task t)
  | claim : N.claims tid n → (s.stores.store n).contains (claimKey tid n) = false →
      Writes N s n (claimKey tid n) (.claim n ts)

theorem Kept.init (N : Naming) (grace : ℕ) : N.Kept (TaskSwarm.init grace : TaskSwarm α) where
  traced := .init
  log := ⟨fun p hp => (by cases hp), fun p hp => (by cases hp), fun p hp => (by cases hp)⟩
  own tid n e _ he := by cases he
  nodeId n := rfl
  ids n th hth := by cases hth

theorem Log.get_step {st st' : StoreSwarm ℚ Str Str (Stored α)} (hl : N.Log st'.written)
    (hs : st.step a = some st') (ht : st'.Traced)
    (he : (st.store n).data.get (claimKey tid m) = some e)
    (hw : (claimKey tid m, e) ∈ st'.written) :
    (st'.store n).data.get (claimKey tid m) = some e := by
  obtain ⟨e', he', _⟩ := StoreSwarm.get_step hs he
  have hw' := ht.prov.held n _ e' he'
  have heq := hl.once _ hw _ hw' (prefix_claimKey tid m) rfl
  cases heq
  exact he'

theorem Kept.not_written {s : TaskSwarm α} (h : N.Kept s) (ht : N.claims tid n)
    (hn : (s.stores.store n).contains (claimKey tid n) = false) :
    ∀ p ∈ s.stores.written, p.1 ≠ claimKey tid n := by
  rintro ⟨k, e⟩ hp rfl
  have hd := (h.log.claim _ hp (prefix_claimKey tid n)).1
  simp only [DistributedStore.contains, h.own tid n e ht hp] at hn
  rw [hd] at hn
  cases hn

theorem Kept.log_write {s : TaskSwarm α} (h : N.Kept s) (hp : N.Writes s n key value)
    (v : Version ℚ Str) : N.Log (s.stores.written ++ [(key, ⟨value, v, false⟩)]) := by
  cases hp with
  | plain ht hc =>
    exact h.log.append (fun hpre => absurd hpre ht) (fun hpre => absurd hpre hc)
      (fun hpre => absurd hpre hc)
  | @record t ht =>
    have hc := not_claim_taskKey t.id
    exact h.log.append (fun _ => ⟨rfl, t, rfl, rfl, ht⟩) (fun hpre => absurd hpre hc)
      (fun hpre => absurd hpre hc)
  | @claim tid ts ht hn =>
    exact h.log.append (fun hpre => absurd hpre (not_task_claimKey tid n))
      (fun _ => ⟨rfl, tid, n, ts, ht, rfl, rfl⟩) (fun _ => h.not_written ht hn)

theorem Kept.write {s s' : TaskSwarm α} (h : N.Kept s) (hp : N.Writes s n key value)
    (hst : s.stores.step (.set n key value clock) = some s'.stores)
    (hb : ∀ m, (s'.board m).nodeId = (s.board m).nodeId) (hi : N.InHand s'.threads) :
    N.Kept s' := by
  have ht := h.traced.step hst
  have hw := StoreSwarm.written_set hst
  have hl : N.Log s'.stores.written := by
    rw [hw]
    exact h.log_write hp _
  refine ⟨ht, hl, ?_, fun m => (hb m).trans (h.nodeId m), hi⟩
  intro tid m e htid he
  have hwe := he
  rw [hw] at he
  rcases List.mem_append.1 he with he | he
  · exact hl.get_step hst ht (h.own tid m e htid he) hwe
  · have hq := List.mem_singleton.1 he
    cases hp with
    | plain _ hc =>
      cases hq
      exact absurd (prefix_claimKey tid m) hc
    | record _ =>
      have hkey := (Prod.mk.inj hq).1
      exact absurd (hkey ▸ prefix_claimKey tid m) (not_claim_taskKey _)
    | claim htid' _ =>
      obtain ⟨hkey, hentry⟩ := Prod.mk.inj hq
      obtain ⟨rfl, rfl⟩ := N.claimKey_inj htid htid' hkey
      rw [hentry]
      exact StoreSwarm.get_of_set hst

theorem Kept.replicate {s s' : TaskSwarm α} (h : N.Kept s)
    (hst : s.stores.step a = some s'.stores) (hw : s'.stores.written = s.stores.written)
    (hb : s'.board = s.board) (hth : s'.threads = s.threads) : N.Kept s' := by
  have ht := h.traced.step hst
  have hl : N.Log s'.stores.written := by
    rw [hw]
    exact h.log
  refine ⟨ht, hl, ?_, ?_, ?_⟩
  · intro tid n e htid he
    exact hl.get_step hst ht (h.own tid n e htid (hw ▸ he)) he
  · rw [hb]
    exact h.nodeId
  · rw [hth]
    exact h.ids

theorem Kept.of_eq {s s' : TaskSwarm α} (h : N.Kept s) (hst : s'.stores = s.stores)
    (hb : ∀ m, (s'.board m).nodeId = (s.board m).nodeId) (hi : N.InHand s'.threads) :
    N.Kept s' := by
  refine ⟨?_, ?_, ?_, fun m => (hb m).trans (h.nodeId m), hi⟩
  · rw [hst]
    exact h.traced
  · rw [hst]
    exact h.log
  · rw [hst]
    exact h.own

theorem claim_spec {s : TaskSwarm α} (hb : (s.board n).nodeId = n)
    (hc : s.claim n task clock load storeClock = some st) :
    (st = s.stores ∧ (st.store n).contains (claimKey task.id n) = true) ∨
    ((s.stores.store n).contains (claimKey task.id n) = false ∧ ∃ ts,
      s.stores.step (.set n (claimKey task.id n) (.claim n ts) storeClock) = some st) := by
  unfold TaskSwarm.claim TaskBoard.maybeClaim at hc
  rw [hb, ← claimKey] at hc
  dsimp only at hc
  cases hk : (s.stores.store n).contains (claimKey task.id n) with
  | true =>
    rw [if_pos hk] at hc
    cases hc
    exact .inl ⟨rfl, hk⟩
  | false =>
    rw [if_neg (by rw [hk]; decide)] at hc
    exact .inr ⟨rfl, _, hc⟩

/-- The task of which the node writes a claim in this turn of its loop. -/
def claimsNow (s : TaskSwarm α) (n : Str) (i : ℕ) : Option (Task α) :=
  match (s.threads n)[i]? with
  | some ⟨task :: _, none⟩ =>
    if task.state = .PENDING ∧ task.kind ∈ (s.board n).handlers ∧
        (s.stores.store n).contains (claimKey task.id n) = false then some task
    else none
  | _ => none

theorem claimsNow_eq_some_iff {s : TaskSwarm α} : claimsNow s n i = some task ↔
    ∃ rest, (s.threads n)[i]? = some ⟨task :: rest, none⟩ ∧ task.state = .PENDING ∧
      task.kind ∈ (s.board n).handlers ∧
      (s.stores.store n).contains (claimKey task.id n) = false := by
  unfold claimsNow
  split
  · rename_i task' rest hi
    rw [Option.ite_none_right_eq_some, Option.some_inj, hi]
    constructor
    · rintro ⟨h, rfl⟩
      exact ⟨rest, rfl, h⟩
    · rintro ⟨rest', he, h⟩
      cases he
      exact ⟨h, rfl⟩
  · rename_i hno
    refine iff_of_false (fun h => by cases h) ?_
    rintro ⟨rest, hi, -⟩
    exact hno task rest hi

/-- The tasks that an action submits and the claim that it writes are those of the naming. -/
def Allows (N : Naming) (s : TaskSwarm α) : ClusterAction α → Prop
  | .act (.submit _ tid ..) => N.ids tid
  | .act (.advance n i ..) => ∀ task ∈ claimsNow s n i, N.claims task.id n
  | .resubmit _ tid .. => N.ids tid
  | _ => True

theorem Kept.advance {s : TaskSwarm α} (h : N.Kept s)
    (hi : (s.threads n)[i]? = some ⟨task :: rest, none⟩)
    (hclaims : claimsNow s n i = some task → N.claims task.id n)
    (hs : s.advance n i task rest clock load storeClock = some s') : N.Kept s' := by
  have hboard := fun m => (TaskSwarm.boardStep_advance hs m).grows.nodeId
  rcases TaskSwarm.advance_cases hs with ⟨_, rfl⟩ | ⟨_, _, rfl⟩ |
    ⟨hstate, hkind, st, _, b, runs, hst, _, _, rfl⟩
  · exact h.of_eq rfl hboard
      (h.ids.setThread (s := s.setBoard n _) hi (TaskSwarm.inHand_advanced false))
  · exact h.of_eq rfl (fun _ => rfl) (h.ids.setThread hi (TaskSwarm.inHand_advanced false))
  · have hids := h.ids.setThread (s := { s with stores := st }.setBoard n b)
      (u := ⟨rest, if runs then some task else none⟩) hi (TaskSwarm.inHand_advanced runs)
    rcases claim_spec (h.nodeId n) hst with ⟨rfl, _⟩ | ⟨hn, ts, hset⟩
    · exact h.of_eq rfl hboard hids
    · have hnow := claimsNow_eq_some_iff.2 ⟨rest, hi, hstate, hkind, hn⟩
      exact h.write (.claim (hclaims hnow) hn) hset hboard hids

theorem Kept.evaluate {s : TaskSwarm α} (h : N.Kept s)
    (ht : TaskBoard.tasks (s.stores.store n) = some l) :
    N.InHand (Function.update s.threads n (s.threads n ++ [⟨l, none⟩])) := by
  intro m th hth t htask
  by_cases hmn : m = n
  · subst hmn
    rw [Function.update_self] at hth
    rcases List.mem_append.1 hth with hth | hth
    · exact h.ids m th hth t htask
    · rw [List.mem_singleton.1 hth] at htask
      rcases htask with htask | htask
      · obtain ⟨k, e, he, hpre, hv⟩ := TaskSwarm.mem_tasks ht htask
        obtain ⟨_, t', hv', _, ht'⟩ := h.log.record _ (h.traced.prov.held m k e he) hpre
        rw [hv] at hv'
        cases hv'
        exact ht'
      · cases htask
  · rw [Function.update_of_ne hmn] at hth
    exact h.ids m th hth t htask

theorem Kept.act [PyNone α] {s : TaskSwarm α} (h : N.Kept s) (ha : N.Allows s (.act a))
    (hs : s.step a = some s') : N.Kept s' := by
  have hboard := fun m => (TaskSwarm.grows_step hs m).nodeId
  cases TaskSwarm.stepped_of_step hs with
  | submit n tid kind args clock _ hst =>
    exact h.write (.record (t := TaskBoard.newTask n tid kind args) ha) hst hboard h.ids
  | registerHandler => exact h.of_eq rfl hboard h.ids
  | setLoadModel => exact h.of_eq rfl hboard h.ids
  | put n key value clock htask hclaim hst =>
    exact h.write (.plain htask hclaim) hst hboard h.ids
  | evaluate n htasks => exact h.of_eq rfl hboard (h.evaluate htasks)
  | @advance task rest _ n i clock load storeClock hi hadv => exact h.advance hi (ha task) hadv
  | @finish th task st n i outcome clock hi ht hst =>
    have htask : N.ids (task.ended n outcome).id := by
      rw [TaskSwarm.ended_id]
      exact h.ids n th (List.mem_of_getElem? hi) task (.inr ht)
    rw [← TaskSwarm.ended_id task n outcome] at hst
    have hids := h.ids.setThread (s := { s with stores := st }) (u := ⟨th.rest, none⟩) hi
      (fun t ht' => ht'.imp_right (fun ht' => by cases ht'))
    exact h.write (.record htask) hst hboard hids
  | digest n hst hw => exact h.replicate hst hw rfl rfl
  | mergeEntry n i key hst hw => exact h.replicate hst hw rfl rfl
  | applyDigest n i hst hw => exact h.replicate hst hw rfl rfl

theorem Kept.step [PyNone α] {c c' : TaskCluster α} (h : N.Kept c.swarm)
    (ha : N.Allows c.swarm a) (hstep : c.step a = some c') : N.Kept c'.swarm := by
  rcases TaskCluster.step_cases hstep with ⟨b, s, rfl, _, hs, rfl⟩ |
    ⟨n, tid, kind, args, clock, st, rfl, _, hst, rfl⟩ | ⟨n, rfl, rfl⟩
  · exact h.act ha hs
  · exact h.write (.record (t := TaskBoard.newTask n tid kind args) ha) hst (fun _ => rfl) h.ids
  · exact h

theorem Kept.claim_items {s : TaskSwarm α} (h : N.Kept s) (ht : N.ids tid) :
    p ∈ (s.stores.store n).items.filter (fun p =>
      (CLAIM_PREFIX ++ tid ++ ['/']).isPrefixOf p.1) ↔
    ∃ m ts, s.HoldsClaim n tid m ts ∧ p = (claimKey tid m, .claim m ts) := by
  rw [List.mem_filter, List.isPrefixOf_iff_prefix, DistributedStore.items, List.mem_map]
  constructor
  · rintro ⟨⟨⟨k, e⟩, hq, rfl⟩, hpre⟩
    have hget := Dict.mem_items.1 (List.mem_filter.1 hq).1
    have hclaim : CLAIM_PREFIX <+: k := by
      rw [List.append_assoc] at hpre
      exact (List.prefix_append _ _).trans hpre
    obtain ⟨_, tid', m, ts, ht', rfl, hv⟩ :=
      h.log.claim _ (h.traced.prov.held n k e hget) hclaim
    cases N.apart ht' ht hpre
    exact ⟨m, ts, ⟨e, hget, hv⟩, by rw [hv]⟩
  · rintro ⟨m, ts, ⟨e, he, hv⟩, rfl⟩
    have hd := (h.log.claim _ (h.traced.prov.held n _ e he) (prefix_claimKey tid m)).1
    refine ⟨⟨(claimKey tid m, e), ?_, by rw [hv]⟩, List.prefix_append _ _⟩
    rw [List.mem_filter]
    exact ⟨Dict.mem_items.2 he, by rw [hd]; rfl⟩

theorem Kept.claims_spec {s : TaskSwarm α} (h : N.Kept s) (ht : N.ids tid) (n : Str) :
    ∃ d, TaskBoard.claims (s.stores.store n) tid = some d ∧
      ∀ m ts, d.get m = some ts ↔ s.HoldsClaim n tid m ts := by
  let g : Str × ℚ → Str × Stored α := fun x => (claimKey tid x.1, .claim x.1 x.2)
  obtain ⟨l, hl⟩ : ∃ l, List.map g l = (s.stores.store n).items.filter (fun p =>
      (CLAIM_PREFIX ++ tid ++ ['/']).isPrefixOf p.1) := by
    have hrange := Set.range_list_map g
    apply (Set.ext_iff.1 hrange _).2
    intro p hp
    obtain ⟨m, ts, _, rfl⟩ := (h.claim_items ht).1 hp
    exact ⟨(m, ts), rfl⟩
  have hnd : (l.map Prod.fst).Nodup := by
    have hkeys : ((l.map g).map Prod.fst).Nodup := by
      rw [hl]
      exact (List.filter_sublist.map Prod.fst).nodup (TaskSwarm.nodup_items (s.stores.store n))
    rw [List.map_map] at hkeys
    have hcomp : (Prod.fst ∘ g) = claimKey tid ∘ Prod.fst := rfl
    rw [hcomp, ← List.map_map] at hkeys
    exact hkeys.of_map _
  refine ⟨.ofList l, ?_, fun m ts => ?_⟩
  · unfold TaskBoard.claims
    have hread : (l.map g).mapM (fun p => TaskBoard.readClaim p.2) = some l :=
      TaskSwarm.mapM_map (f := fun p => TaskBoard.readClaim p.2) (g := g) (fun _ => rfl) l
    rw [← hl, hread]
    rfl
  · rw [Dict.get_ofList hnd, ← mem_iff_lookup hnd]
    constructor
    · intro hm
      have hg : g (m, ts) ∈ l.map g := List.mem_map_of_mem hm
      rw [hl] at hg
      obtain ⟨m', ts', hh, he⟩ := (h.claim_items ht).1 hg
      cases (Prod.mk.inj he).2
      exact hh
    · intro hh
      have hg : g (m, ts) ∈ l.map g := by
        rw [hl]
        exact (h.claim_items ht).2 ⟨m, ts, hh, rfl⟩
      obtain ⟨x, hx, he⟩ := List.mem_map.1 hg
      obtain ⟨m', ts'⟩ := x
      cases (Prod.mk.inj he).2
      exact hx

def slashless : Naming where
  ids tid := '/' ∉ tid
  claims tid _ := '/' ∉ tid
  ids_of_claims h := h
  apart h ht hpre := (eq_of_prefix_claimKey ht h hpre).symm

theorem Kept.allows_of_slashless [PyNone α] {s : TaskSwarm α} (h : slashless.Kept s)
    (ha : a.Slashless) : slashless.Allows s a := by
  cases a with
  | act b =>
    cases b with
    | submit n tid kind args clock => exact ha
    | advance n i clock load storeClock =>
      intro task htask
      obtain ⟨rest, hi, -⟩ := claimsNow_eq_some_iff.1 htask
      exact h.ids n _ (List.mem_of_getElem? hi) task (.inl List.mem_cons_self)
    | _ => trivial
  | resubmit n tid kind args clock => exact ha
  | crash n => trivial

end Naming

/-- What every run writes: tasks and claims under their own keys, and each claim once. -/
structure ClaimLog (written : List (Str × Entry ℚ Str (Stored α))) : Prop where
  record : ∀ p ∈ written, TASK_PREFIX <+: p.1 → p.2.deleted = false ∧
    ∃ t, p.2.value = .task t ∧ p.1 = TASK_PREFIX ++ t.id ∧ '/' ∉ t.id
  claim : ∀ p ∈ written, CLAIM_PREFIX <+: p.1 → p.2.deleted = false ∧
    ∃ tid n ts, '/' ∉ tid ∧ p.1 = claimKey tid n ∧ p.2.value = .claim n ts
  once : ∀ p ∈ written, ∀ q ∈ written, CLAIM_PREFIX <+: p.1 → p.1 = q.1 → p = q

namespace TaskSwarm

variable {α : Type}

/-- Every task that a loop of a node has in hand has an id without a slash. -/
def ThreadIds (threads : Str → List (EvalThread α)) : Prop :=
  ∀ n, ∀ th ∈ threads n, ∀ t, t ∈ th.rest ∨ t ∈ th.executing → '/' ∉ t.id

/-- What every run keeps in which no id has a slash. -/
structure Sane (s : TaskSwarm α) : Prop where
  traced : s.stores.Traced
  log : ClaimLog s.stores.written
  own : ∀ tid n e, '/' ∉ tid → (claimKey tid n, e) ∈ s.stores.written →
    (s.stores.store n).data.get (claimKey tid n) = some e
  nodeId : ∀ n, (s.board n).nodeId = n
  ids : ThreadIds s.threads

/-- The write of node `n` is one that task boards or the application make. -/
inductive Proper (s : TaskSwarm α) (n : Str) : Str → Stored α → Prop
  | plain : ¬ TASK_PREFIX <+: key → ¬ CLAIM_PREFIX <+: key → Proper s n key value
  | record : '/' ∉ t.id → Proper s n (TASK_PREFIX ++ t.id) (.task t)
  | claim : '/' ∉ tid → (s.stores.store n).contains (claimKey tid n) = false →
      Proper s n (claimKey tid n) (.claim n ts)

theorem sane_iff {s : TaskSwarm α} : s.Sane ↔ Naming.slashless.Kept s :=
  ⟨fun h => ⟨h.traced, ⟨h.log.record, h.log.claim, h.log.once⟩, h.own, h.nodeId, h.ids⟩,
    fun h => ⟨h.traced, ⟨h.log.record, h.log.claim, h.log.once⟩, h.own, h.nodeId, h.ids⟩⟩

theorem Sane.init (grace : ℕ) : (TaskSwarm.init grace : TaskSwarm α).Sane :=
  sane_iff.2 (.init _ grace)

theorem Sane.write {s s' : TaskSwarm α} (h : s.Sane) (hp : s.Proper n key value)
    (hst : s.stores.step (.set n key value clock) = some s'.stores)
    (hb : ∀ m, (s'.board m).nodeId = (s.board m).nodeId) (hi : ThreadIds s'.threads) :
    s'.Sane := by
  have hw : Naming.slashless.Writes s n key value := by
    cases hp with
    | plain ht hc => exact .plain ht hc
    | record ht => exact .record ht
    | claim ht hn => exact .claim ht hn
  exact sane_iff.2 ((sane_iff.1 h).write hw hst hb hi)

theorem claim_spec {s : TaskSwarm α} (h : s.Sane)
    (hc : s.claim n task clock load storeClock = some st) :
    (st = s.stores ∧ (st.store n).contains (claimKey task.id n) = true) ∨
    ((s.stores.store n).contains (claimKey task.id n) = false ∧ ∃ ts,
      s.stores.step (.set n (claimKey task.id n) (.claim n ts) storeClock) = some st) :=
  Naming.claim_spec (h.nodeId n) hc

theorem Sane.step [PyNone α] {s : TaskSwarm α} (h : s.Sane)
    (ha : ClusterAction.Slashless (.act a)) (hs : s.step a = some s') : s'.Sane := by
  have hkept := sane_iff.1 h
  exact sane_iff.2 (hkept.act (hkept.allows_of_slashless ha) hs)

/-- Node `m` has claimed a task, at any time so far. -/
def Claimed (s : TaskSwarm α) (tid m : Str) (ts : ℚ) : Prop :=
  ∃ e, (claimKey tid m, e) ∈ s.stores.written ∧ e.value = .claim m ts

theorem HoldsClaim.claimed {s : TaskSwarm α} (h : s.HoldsClaim n tid m ts) (hs : s.Sane) :
    s.Claimed tid m ts := by
  obtain ⟨e, he, hv⟩ := h
  exact ⟨e, hs.traced.prov.held n _ e he, hv⟩

theorem Claimed.own {s : TaskSwarm α} (h : s.Claimed tid m ts) (hs : s.Sane) (ht : '/' ∉ tid) :
    s.HoldsClaim m tid m ts := by
  obtain ⟨e, he, hv⟩ := h
  exact ⟨e, hs.own tid m e ht he, hv⟩

theorem Claimed.unique {s : TaskSwarm α} (h : s.Claimed tid m ts) (h' : s.Claimed tid m ts')
    (hs : s.Sane) : ts = ts' := by
  obtain ⟨e, he, hv⟩ := h
  obtain ⟨e', he', hv'⟩ := h'
  cases hs.log.once _ he _ he' (prefix_claimKey tid m) rfl
  rw [hv] at hv'
  cases hv'
  rfl

theorem claims_spec {s : TaskSwarm α} (hs : s.Sane) (ht : '/' ∉ tid) (n : Str) :
    ∃ d, TaskBoard.claims (s.stores.store n) tid = some d ∧
      ∀ m ts, d.get m = some ts ↔ s.HoldsClaim n tid m ts :=
  (sane_iff.1 hs).claims_spec ht n

end TaskSwarm

namespace TaskCluster

variable {α : Type} [PyNone α]

theorem sane_step {c c' : TaskCluster α} (hc : c.swarm.Sane) (ha : a.Slashless)
    (h : c.step a = some c') : c'.swarm.Sane := by
  have hkept := TaskSwarm.sane_iff.1 hc
  exact TaskSwarm.sane_iff.2 (hkept.step (hkept.allows_of_slashless ha) h)

theorem sane_of_run {c : TaskCluster α} (h : Run TaskCluster.step (init grace) past c)
    (hp : ∀ p ∈ past, p.2.Slashless) : c.swarm.Sane :=
  h.invariant (I := fun c => c.swarm.Sane) (C := fun _ a => ClusterAction.Slashless a) hp
    (TaskSwarm.Sane.init grace) (fun _ _ _ hs ha hstep => sane_step hs ha hstep)

theorem stores_step {c c' : TaskCluster α} (h : c.step a = some c') :
    c'.swarm.stores = c.swarm.stores ∨ ∃ b, c.swarm.stores.step b = some c'.swarm.stores := by
  rcases step_cases h with ⟨b, s, rfl, _, hs, rfl⟩ |
    ⟨n, tid, kind, args, clock, st, rfl, _, hst, rfl⟩ | ⟨n, rfl, rfl⟩
  · exact TaskSwarm.stores_step hs
  · exact .inr ⟨_, hst⟩
  · exact .inl rfl

theorem written_run {c c' : TaskCluster α} (h : Run TaskCluster.step c past c') :
    ∀ p ∈ c.swarm.stores.written, p ∈ c'.swarm.stores.written := by
  induction h with
  | start => exact fun p hp => hp
  | next _ hs ih =>
    intro p hp
    rcases stores_step hs with he | ⟨b, hb⟩
    · rw [he]
      exact ih p hp
    · exact StoreSwarm.written_mono hb p (ih p hp)

theorem grows_step {c c' : TaskCluster α} (h : c.step a = some c') (m : Str) :
    (c.swarm.board m).Grows (c'.swarm.board m) := by
  rcases step_cases h with ⟨b, s, rfl, _, hs, rfl⟩ |
    ⟨n, tid, kind, args, clock, st, rfl, _, hst, rfl⟩ | ⟨n, rfl, rfl⟩
  · exact TaskSwarm.grows_step hs m
  · exact .refl _
  · exact .refl _

end TaskCluster

end Suprime
