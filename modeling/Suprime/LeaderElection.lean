import Mathlib.Data.List.Chain
import Mathlib.Order.Bounds.Basic
import Suprime.PeerSnapshots

namespace Suprime
set_option autoImplicit true

/-- `elect_leader`: the smallest id of the node itself and of the peers that it is given. -/
def electLeader (selfId : String) (alivePeerIds : List String) : String :=
  alivePeerIds.foldl min selfId

structure LeaderView where
  selfId : String
  leader : Option String

/-- The view after an update, and the new leader if it changed. -/
def LeaderView.update (v : LeaderView) (alivePeerIds : List String) : LeaderView × Option String :=
  let newLeader := electLeader v.selfId alivePeerIds
  if some newLeader ≠ v.leader then ({ v with leader := some newLeader }, some newLeader)
  else (v, none)

def PeerTable.knownIds (t : PeerTable) : List String := t.peers.keys

/-- A registered callback. What it was told, whether it has raised an exception, and how many
changes of the leader there had been when it was registered are history. -/
structure LeaderCallback where
  since : ℕ
  told : List String
  raised : Bool

/-- What a call of a callback does: it may register further callbacks, and it may raise. -/
structure CallbackCall where
  registers : ℕ
  raises : Bool

/-- The loop over the callbacks, also over those that are registered meanwhile, up to the first one
that raises; `none` if the calls are not those that are made. -/
def notify (leader : String) (since : ℕ) :
    List LeaderCallback → List CallbackCall → Option (List LeaderCallback)
  | [], [] => some []
  | c :: callbacks, call :: calls =>
    let called : LeaderCallback :=
      { c with told := c.told ++ [leader], raised := c.raised || call.raises }
    let rest := callbacks ++ List.replicate call.registers ⟨since, [], false⟩
    if call.raises then (if calls.isEmpty then some (called :: rest) else none)
    else (notify leader since rest calls).map (called :: ·)
  | _, _ => none

/-- A node's part in the election. The leader that `start` chose, the later ones and the time of the
latest tick are history. -/
structure Elector where
  view : LeaderView
  callbacks : List LeaderCallback
  initial : Option String
  changes : List String
  ticked : Option ℚ

namespace Elector

def init (n : String) : Elector := ⟨⟨n, none⟩, [], none, [], none⟩

/-- The election in `start`, which calls nobody back. -/
def start (e : Elector) (t : PeerTable) : Elector :=
  let view := (e.view.update t.knownIds).1
  { e with view := view, initial := view.leader }

/-- `on_leader_change` -/
def onLeaderChange (e : Elector) : Elector :=
  { e with callbacks := e.callbacks ++ [⟨e.changes.length, [], false⟩] }

/-- `_update_leader`, after which an exception of a callback ends the tick. -/
def updateLeader (e : Elector) (t : PeerTable) (calls : List CallbackCall) : Option Elector :=
  let r := e.view.update (t.alive.map Peer.nodeId)
  match r.2 with
  | some changed => (notify changed e.changes.length e.callbacks calls).map (fun callbacks =>
    { e with view := r.1, callbacks := callbacks, changes := e.changes ++ [changed] })
  | none => if calls.isEmpty then some { e with view := r.1 } else none

end Elector

/-- The nodes of a swarm with their leaders. -/
structure LeaderSwarm where
  members : MemberSwarm
  elector : String → Elector

inductive LeaderAction
  | member (a : RejoinAction)
  | start (n : String)
  | onLeaderChange (n : String)
  | updateLeader (n : String) (calls : List CallbackCall)

namespace LeaderSwarm

def init (config : String → MemberConfig) : LeaderSwarm := ⟨.init config, .init⟩

/-- What a step of the members means for the elections: a node that starts anew has a new view. -/
def follow (s : LeaderSwarm) (members : MemberSwarm) : RejoinAction → LeaderSwarm
  | .restart n _ => ⟨members, Function.update s.elector n (.init n)⟩
  | .act (.tick n _) =>
    ⟨members, Function.update s.elector n { s.elector n with ticked := (members.node n).now }⟩
  | .act _ => ⟨members, s.elector⟩

def step (s : LeaderSwarm) : LeaderAction → Option LeaderSwarm
  | .member a => (s.members.rejoinStep a).map (fun members => s.follow members a)
  | .start n => some { s with
      elector := Function.update s.elector n ((s.elector n).start (s.members.node n).peers) }
  | .onLeaderChange n => some { s with
      elector := Function.update s.elector n (s.elector n).onLeaderChange }
  | .updateLeader n calls =>
    ((s.elector n).updateLeader (s.members.node n).peers calls).map (fun e =>
      { s with elector := Function.update s.elector n e })

/-- A node starts only once, before its first election, and it takes time to become a suspect. -/
def Meets (s : LeaderSwarm) : LeaderAction → Prop
  | .member (.restart _ config) => 0 < config.suspectAfter
  | .start n => (s.elector n).view.leader = none
  | _ => True

instance (s : LeaderSwarm) : (a : LeaderAction) → Decidable (s.Meets a)
  | .member (.restart _ config) => inferInstanceAs (Decidable (0 < config.suspectAfter))
  | .start n => inferInstanceAs (Decidable ((s.elector n).view.leader = none))
  | .member (.act _) => isTrue trivial
  | .onLeaderChange _ => isTrue trivial
  | .updateLeader _ _ => isTrue trivial

def memberPast (past : List (LeaderSwarm × LeaderAction)) : List (MemberSwarm × RejoinAction) :=
  past.filterMap (fun p => match p.2 with
    | .member a => some (p.1.members, a)
    | _ => none)

/-- The node itself and the peers whose latest news was fresh at its latest tick. -/
def candidates (s : LeaderSwarm) (n : String) : Set String :=
  {k | k = n ∨ ∃ p, (s.members.node n).peers.get k = some p ∧
    ∀ t ∈ (s.elector n).ticked, t - p.lastUpdate < (s.members.node n).peers.suspectAfter}

end LeaderSwarm

theorem isLeast_electLeader (selfId : String) (alivePeerIds : List String) :
    IsLeast {k | k = selfId ∨ k ∈ alivePeerIds} (electLeader selfId alivePeerIds) := by
  induction alivePeerIds generalizing selfId with
  | nil => exact ⟨.inl rfl, fun k hk => hk.elim (fun h => h.ge) (fun h => by cases h)⟩
  | cons a as ih =>
    obtain ⟨hmem, hle⟩ := ih (min selfId a)
    constructor
    · rcases hmem with hself | hmem
      · rcases min_choice selfId a with hmin | hmin
        · exact .inl (hself.trans hmin)
        · exact .inr (List.mem_cons.2 (.inl (hself.trans hmin)))
      · exact .inr (List.mem_cons_of_mem _ hmem)
    · intro k hk
      have hmin : electLeader (min selfId a) as ≤ min selfId a := hle (.inl rfl)
      rcases hk with rfl | hk
      · exact hmin.trans (min_le_left _ _)
      · rcases List.mem_cons.1 hk with rfl | hk
        · exact hmin.trans (min_le_right _ _)
        · exact hle (.inr hk)

theorem LeaderView.update_spec (v : LeaderView) (ids : List String) :
    (v.update ids).1 = { v with leader := some (electLeader v.selfId ids) } ∧
      (v.update ids).2 = if v.leader = some (electLeader v.selfId ids) then none
        else some (electLeader v.selfId ids) := by
  obtain ⟨selfId, leader⟩ := v
  unfold LeaderView.update
  dsimp only
  by_cases h : leader = some (electLeader selfId ids)
  · rw [if_pos h, if_neg (not_not.2 h.symm), ← h]
    exact ⟨rfl, rfl⟩
  · rw [if_neg h, if_pos (Ne.symm h)]
    exact ⟨rfl, rfl⟩

namespace Member

/-- The peers that count as alive are those whose latest news was fresh at the latest tick. -/
structure Labelled (ticked : Option ℚ) (m : Member) : Prop where
  positive : 0 < m.peers.suspectAfter
  before : ∀ t ∈ ticked, t ≤ m.now
  label : ∀ k p, m.peers.get k = some p →
    (p.state = .ALIVE ↔ ∀ t ∈ ticked, t - p.lastUpdate < m.peers.suspectAfter)

theorem Labelled.later {m m' : Member} (h : m.Labelled ticked) (hp : m'.peers = m.peers)
    (hn : m.now ≤ m'.now) : m'.Labelled ticked where
  positive := by
    rw [hp]
    exact h.positive
  before t ht := (h.before t ht).trans hn
  label := by
    rw [hp]
    exact h.label

theorem Labelled.stamp {m m' : Member} (h : m.Labelled ticked) (hn : m.now ≤ m'.now)
    (hs : m'.peers.suspectAfter = m.peers.suspectAfter)
    (hp : ∀ k p, m'.peers.get k = some p → m.peers.get k = some p ∨
      p.state = .ALIVE ∧ p.lastUpdate = m'.now) : m'.Labelled ticked where
  positive := by
    rw [hs]
    exact h.positive
  before t ht := (h.before t ht).trans hn
  label k p hk := by
    rw [hs]
    cases hp k p hk with
    | inl hold => exact h.label k p hold
    | inr hnew =>
      refine iff_of_true hnew.1 (fun t ht => ?_)
      have hle := (h.before t ht).trans hn
      rw [hnew.2]
      linarith [h.positive]

theorem suspectAfter_merge (t : PeerTable) (clock : ℚ) (e : PeerRecord) :
    (t.merge clock e).1.suspectAfter = t.suspectAfter := by
  by_cases h : t.Accepts e
  · rw [PeerTable.merge_of_accepts clock h]
    rfl
  · rw [PeerTable.merge_of_not_accepts clock h]

theorem Labelled.observe {m : Member} (h : m.Labelled ticked) (hc : m.now ≤ clock) :
    (m.observe src clock e).Labelled ticked := by
  have hsuspect : (m.observe src clock e).peers.suspectAfter = m.peers.suspectAfter :=
    suspectAfter_merge _ _ _
  apply h.stamp hc hsuspect
  intro k p hk
  have hk' : (m.peers.merge clock e).1.get k = some p := hk
  rw [PeerTable.get_merge] at hk'
  split at hk'
  · cases hk'
    exact .inr ⟨rfl, rfl⟩
  · exact .inl hk'

theorem Labelled.applyDigest {m : Member} (h : m.Labelled ticked) :
    (m.applyDigest src elapsed l).Labelled ticked := by
  induction l generalizing m elapsed with
  | nil => exact h
  | cons e es ih => exact ih (h.observe (le_elapsed _ _))

theorem Labelled.handleAck {m : Member} (h : m.Labelled ticked) :
    (m.handleAck src elapsed subject).Labelled ticked := by
  unfold Member.handleAck
  split
  · exact h
  · have hs : (m.peers.refresh (m.now + elapsed 0) subject).1.suspectAfter =
        m.peers.suspectAfter := by
      unfold PeerTable.refresh
      split <;> rfl
    refine h.stamp (le_elapsed _ _) hs (fun k p hk => ?_)
    rw [PeerTable.get_refresh] at hk
    split at hk
    · obtain ⟨q, _, rfl⟩ := Option.map_eq_some_iff.1 hk
      exact .inr ⟨rfl, rfl⟩
    · exact .inl hk

theorem Labelled.route {m : Member} (h : m.Labelled ticked) (elapsed : ℕ → ℚ≥0)
    (msg : MemberMessage) : (m.route elapsed msg).1.Labelled ticked := by
  obtain ⟨src, body⟩ := msg
  cases body with
  | JOIN address heartbeat =>
    simp only [Member.route, handleJoin]
    split
    · exact h
    · exact h.observe (le_elapsed _ _)
  | WELCOME l => exact h.applyDigest
  | GOSSIP l => exact h.applyDigest
  | PING subject ackTo ackAddr => exact h
  | PING_REQ subject subjectAddr ackTo ackAddr => exact h
  | ACK subject => exact h.handleAck

theorem Labelled.tick {m : Member} (h : m.Labelled ticked) (elapsed : ℚ≥0) :
    (m.tick elapsed).Labelled (some (m.tick elapsed).now) := by
  have hnow : m.now ≤ m.now + elapsed := le_elapsed _ _
  have hs : (m.tick elapsed).peers.suspectAfter = m.peers.suspectAfter :=
    (m.peers.tick_fields (m.now + elapsed)).2.2
  refine ⟨hs ▸ h.positive, fun t ht => ?_, fun k p hk => ?_⟩
  · rw [Option.mem_some_iff] at ht
    exact ht.ge
  · have hk' : (m.peers.tick (m.now + elapsed)).get k = some p := hk
    rw [PeerTable.get_tick] at hk'
    obtain ⟨q, hq, hage⟩ := Option.bind_eq_some_iff.1 hk'
    simp only [Option.mem_some_iff, forall_eq', hs]
    change p.state = .ALIVE ↔ m.now + elapsed - p.lastUpdate < m.peers.suspectAfter
    unfold PeerTable.age at hage
    split at hage
    · cases hage
    · split at hage
      · rename_i hsilent
        cases hage
        exact iff_of_false (fun h => by cases h) (not_lt.2 hsilent)
      · rename_i hfresh
        cases hage
        have hlt := not_le.1 hfresh
        -- whoever is fresh now was fresh at every tick before
        exact iff_of_true ((h.label k _ hq).2 (fun t ht => by linarith [h.before t ht])) hlt

end Member

namespace PeerTable

theorem mem_knownIds {t : PeerTable} : k ∈ t.knownIds ↔ ∃ p, t.get k = some p := Dict.mem_keys

theorem mem_alive_ids {t : PeerTable} :
    k ∈ t.alive.map Peer.nodeId ↔ ∃ p, t.get k = some p ∧ p.state = .ALIVE := by
  constructor
  · intro h
    obtain ⟨p, hp, rfl⟩ := List.mem_map.1 h
    obtain ⟨hp, hstate⟩ := List.mem_filter.1 hp
    obtain ⟨x, hx, rfl⟩ := List.mem_map.1 hp
    have hget := Dict.mem_items.1 hx
    rw [t.keyed _ _ hget]
    exact ⟨x.2, hget, of_decide_eq_true hstate⟩
  · rintro ⟨p, hp, hstate⟩
    have hmem : p ∈ t.peers.values := List.mem_map.2 ⟨(k, p), Dict.mem_items.2 hp, rfl⟩
    rw [← t.keyed k p hp]
    exact List.mem_map_of_mem (List.mem_filter.2 ⟨hmem, decide_eq_true hstate⟩)

end PeerTable

/-- The callbacks have heard of every change since they were registered, up to the first one that
has ever raised, which may have kept changes from those behind it. -/
def Informed (changes : List String) : List LeaderCallback → Prop
  | [] => True
  | c :: callbacks =>
    c.told = changes.drop c.since ∧ (c.raised = false → Informed changes callbacks)

/-- A callback has heard of changes since it was registered, in their order, and of nothing else. -/
def LeaderCallback.Hears (changes : List String) (c : LeaderCallback) : Prop :=
  c.since ≤ changes.length ∧ c.told.Sublist (changes.drop c.since)

theorem hears_new (changes : List String) :
    (⟨changes.length, [], false⟩ : LeaderCallback).Hears changes :=
  ⟨le_rfl, List.nil_sublist _⟩

theorem LeaderCallback.Hears.later {c : LeaderCallback} (h : c.Hears changes) (leader : String) :
    c.Hears (changes ++ [leader]) := by
  refine ⟨?_, ?_⟩
  · rw [List.length_append]
    exact Nat.le_add_right_of_le h.1
  · rw [List.drop_append_of_le_length h.1]
    exact h.2.trans (List.sublist_append_left _ _)

theorem Informed.append_new {callbacks : List LeaderCallback} (h : Informed changes callbacks)
    (k : ℕ) :
    Informed changes (callbacks ++ List.replicate k ⟨changes.length, [], false⟩) := by
  have hnew : ([] : List String) = changes.drop changes.length := List.drop_length.symm
  induction callbacks with
  | nil =>
    rw [List.nil_append]
    induction k with
    | zero => exact trivial
    | succ k ih => exact ⟨hnew, fun _ => ih⟩
  | cons c callbacks ih => exact ⟨h.1, fun hc => ih (h.2 hc)⟩

theorem hears_append_new {callbacks : List LeaderCallback}
    (h : ∀ c ∈ callbacks, c.Hears changes) (k : ℕ) :
    ∀ c ∈ callbacks ++ List.replicate k ⟨changes.length, [], false⟩, c.Hears changes := by
  intro c hc
  rcases List.mem_append.1 hc with hc | hc
  · exact h c hc
  · rw [List.eq_of_mem_replicate hc]
    exact hears_new changes

theorem LeaderCallback.Hears.call {c : LeaderCallback} (h : c.Hears changes) (leader : String)
    (raised : Bool) :
    LeaderCallback.Hears (changes ++ [leader])
      { c with told := c.told ++ [leader], raised := raised } := by
  refine ⟨(h.later leader).1, ?_⟩
  change (c.told ++ [leader]).Sublist ((changes ++ [leader]).drop c.since)
  rw [List.drop_append_of_le_length h.1]
  exact h.2.append_right [leader]

/-- The first callback is called, and the loop goes on with the others unless it raises. -/
theorem notify_cons {c : LeaderCallback} {callbacks callbacks' : List LeaderCallback}
    (hr : notify leader since (c :: callbacks) calls = some callbacks') :
    ∃ call calls' rest, calls = call :: calls' ∧
      callbacks' =
        { c with told := c.told ++ [leader], raised := c.raised || call.raises } :: rest ∧
      (call.raises = true ∧
          rest = callbacks ++ List.replicate call.registers ⟨since, [], false⟩ ∨
        call.raises = false ∧
          notify leader since (callbacks ++ List.replicate call.registers ⟨since, [], false⟩)
            calls' = some rest) := by
  cases calls with
  | nil => cases hr
  | cons call calls' =>
    rw [notify] at hr
    cases hraises : call.raises with
    | true =>
      rw [hraises, if_pos rfl] at hr
      split at hr
      · cases hr
        exact ⟨call, calls', _, rfl, by rw [hraises], .inl ⟨hraises, rfl⟩⟩
      · cases hr
    | false =>
      rw [hraises, if_neg Bool.false_ne_true] at hr
      obtain ⟨rest, hrest, rfl⟩ := Option.map_eq_some_iff.1 hr
      exact ⟨call, calls', rest, rfl, by rw [hraises], .inr ⟨hraises, hrest⟩⟩

theorem notify_hears {callbacks callbacks' : List LeaderCallback}
    (hr : notify leader changes.length callbacks calls = some callbacks')
    (hhears : ∀ c ∈ callbacks, c.Hears changes) :
    ∀ c ∈ callbacks', c.Hears (changes ++ [leader]) := by
  induction calls generalizing callbacks callbacks' with
  | nil =>
    cases callbacks with
    | nil =>
      cases hr
      exact fun c hc => by cases hc
    | cons c callbacks => cases hr
  | cons call calls ih =>
    cases callbacks with
    | nil => cases hr
    | cons c callbacks =>
      obtain ⟨hc, hbehind⟩ := List.forall_mem_cons.1 hhears
      have hall := hears_append_new hbehind
      obtain ⟨_, _, rest, hcalls, rfl, ⟨_, rfl⟩ | ⟨_, hrest⟩⟩ := notify_cons hr
      · exact List.forall_mem_cons.2 ⟨hc.call leader _, fun b hb => (hall _ b hb).later leader⟩
      · cases hcalls
        exact List.forall_mem_cons.2 ⟨hc.call leader _, ih hrest (hall _)⟩

/-- The callbacks stay informed: one that raises does not count as having informed those behind. -/
theorem notify_informed {callbacks callbacks' : List LeaderCallback}
    (hr : notify leader changes.length callbacks calls = some callbacks')
    (hhears : ∀ c ∈ callbacks, c.Hears changes) (hinformed : Informed changes callbacks) :
    Informed (changes ++ [leader]) callbacks' := by
  induction calls generalizing callbacks callbacks' with
  | nil =>
    cases callbacks with
    | nil =>
      cases hr
      exact trivial
    | cons c callbacks => cases hr
  | cons call calls ih =>
    cases callbacks with
    | nil => cases hr
    | cons c callbacks =>
      obtain ⟨hc, hbehind⟩ := List.forall_mem_cons.1 hhears
      have htold : c.told ++ [leader] = (changes ++ [leader]).drop c.since := by
        rw [List.drop_append_of_le_length hc.1, hinformed.1]
      obtain ⟨_, _, rest, hcalls, rfl, ⟨hraises, rfl⟩ | ⟨_, hrest⟩⟩ := notify_cons hr
      · refine ⟨htold, fun hnot => ?_⟩
        dsimp only at hnot
        rw [hraises, Bool.or_true] at hnot
        cases hnot
      · cases hcalls
        refine ⟨htold, fun hnot => ?_⟩
        have hbefore : c.raised = false := (Bool.or_eq_false_iff.1 hnot).1
        exact ih hrest (hears_append_new hbehind _) ((hinformed.2 hbefore).append_new _)

namespace Elector

/-- An election leaves the smallest id as the leader. If it was the leader before, nobody is called
back, else the callbacks are told of it. -/
theorem updateLeader_cases {e e' : Elector} (hr : e.updateLeader t calls = some e') :
    e'.view = ⟨e.view.selfId, some (electLeader e.view.selfId (t.alive.map Peer.nodeId))⟩ ∧
      e'.initial = e.initial ∧ e'.ticked = e.ticked ∧
      (e.view.leader = e'.view.leader ∧ e'.changes = e.changes ∧ e'.callbacks = e.callbacks ∨
        e.view.leader ≠ e'.view.leader ∧
          e'.changes =
            e.changes ++ [electLeader e.view.selfId (t.alive.map Peer.nodeId)] ∧
          notify (electLeader e.view.selfId (t.alive.map Peer.nodeId)) e.changes.length e.callbacks
            calls = some e'.callbacks) := by
  obtain ⟨hview, hchanged⟩ := e.view.update_spec (t.alive.map Peer.nodeId)
  unfold updateLeader at hr
  dsimp only at hr
  rw [hview, hchanged] at hr
  by_cases hsame : e.view.leader = some (electLeader e.view.selfId (t.alive.map Peer.nodeId))
  · rw [if_pos hsame] at hr
    dsimp only at hr
    split at hr
    · cases hr
      exact ⟨rfl, rfl, rfl, .inl ⟨hsame, rfl, rfl⟩⟩
    · cases hr
  · rw [if_neg hsame] at hr
    obtain ⟨callbacks, hnotify, rfl⟩ := Option.map_eq_some_iff.1 hr
    exact ⟨rfl, rfl, rfl, .inr ⟨hsame, rfl, hnotify⟩⟩

/-- The later leaders bring the one that `start` chose up to date, each is a change, a leader is the
node itself or a node that has spoken, and the callbacks hear of the changes. -/
structure Ok (past : List (MemberSwarm × RejoinAction)) (n : String) (e : Elector) : Prop where
  selfId : e.view.selfId = n
  leader : e.view.leader = e.changes.getLast?.or e.initial
  changes : (e.initial.toList ++ e.changes).IsChain (· ≠ ·)
  real : ∀ l, e.view.leader = some l → l = n ∨ ∃ address, SpokeAt past l address
  hears : ∀ c ∈ e.callbacks, c.Hears e.changes
  informed : Informed e.changes e.callbacks

theorem Ok.init (past : List (MemberSwarm × RejoinAction)) (n : String) :
    (init n).Ok past n where
  selfId := rfl
  leader := rfl
  changes := List.isChain_nil
  real l h := by cases h
  hears c hc := by cases hc
  informed := trivial

theorem Ok.mono {e : Elector} (h : e.Ok past n) (hsub : past ⊆ past') : e.Ok past' n := by
  refine ⟨h.selfId, h.leader, h.changes, fun l hl => ?_, h.hears, h.informed⟩
  cases h.real l hl with
  | inl hself => exact .inl hself
  | inr hspoke =>
    obtain ⟨address, hspoke⟩ := hspoke
    exact .inr ⟨address, hspoke.mono hsub⟩

theorem real_electLeader {m : Member} (hm : m.Backed past) (n : String) {ids : List String}
    (hids : ∀ k ∈ ids, ∃ p, m.peers.get k = some p) :
    electLeader n ids = n ∨ ∃ address, SpokeAt past (electLeader n ids) address := by
  rcases (isLeast_electLeader n ids).1 with hself | hmem
  · exact .inl hself
  · obtain ⟨p, hp⟩ := hids _ hmem
    exact .inr ⟨_, hm.spokeAt hp⟩

theorem Ok.start {e : Elector} {m : Member} (h : e.Ok past n) (hm : m.Backed past)
    (hfirst : e.view.leader = none) : (e.start m.peers).Ok past n := by
  obtain ⟨hview, -⟩ := e.view.update_spec m.peers.knownIds
  have hnone : e.changes = [] := by
    have hor := h.leader
    rw [hfirst] at hor
    exact List.getLast?_eq_none_iff.1 (Option.or_eq_none_iff.1 hor.symm).1
  have hhears := h.hears
  have hinformed := h.informed
  unfold Elector.start
  dsimp only
  rw [hnone] at hhears hinformed ⊢
  rw [hview, h.selfId]
  refine ⟨rfl, rfl, List.isChain_singleton _, fun l hl => ?_, hhears, hinformed⟩
  cases hl
  exact real_electLeader hm n (fun k hk => PeerTable.mem_knownIds.1 hk)

theorem Ok.onLeaderChange {e : Elector} (h : e.Ok past n) : e.onLeaderChange.Ok past n where
  selfId := h.selfId
  leader := h.leader
  changes := h.changes
  real := h.real
  hears := hears_append_new h.hears 1
  informed := h.informed.append_new 1

theorem Ok.updateLeader {e e' : Elector} {m : Member} (h : e.Ok past n) (hm : m.Backed past)
    (hr : e.updateLeader m.peers calls = some e') : e'.Ok past n := by
  have halive : ∀ k ∈ m.peers.alive.map Peer.nodeId, ∃ p, m.peers.get k = some p := by
    intro k hk
    obtain ⟨p, hp, _⟩ := PeerTable.mem_alive_ids.1 hk
    exact ⟨p, hp⟩
  have hreal := real_electLeader hm n halive
  obtain ⟨hview, hinitial, _, hcases⟩ := e.updateLeader_cases hr
  rw [h.selfId] at hview hcases
  have hspoke : ∀ l, e'.view.leader = some l → l = n ∨ ∃ address, SpokeAt past l address := by
    intro l hl
    rw [hview] at hl
    cases hl
    exact hreal
  have hself : e'.view.selfId = n := by rw [hview]
  rcases hcases with ⟨hsame, hchanges, hcallbacks⟩ | ⟨hne, hchanges, hnotify⟩
  · refine ⟨hself, ?_, ?_, hspoke, ?_, ?_⟩
    · rw [← hsame, hchanges, hinitial]
      exact h.leader
    · rw [hchanges, hinitial]
      exact h.changes
    · rw [hchanges, hcallbacks]
      exact h.hears
    · rw [hchanges, hcallbacks]
      exact h.informed
  · refine ⟨hself, ?_, ?_, hspoke, ?_, ?_⟩
    · rw [hchanges, List.getLast?_concat, hview]
      rfl
    · rw [hchanges, hinitial, ← List.append_assoc, List.isChain_append]
      refine ⟨h.changes, List.isChain_singleton _, fun x hx y hy => ?_⟩
      -- the latest change made the leader before
      have hbefore : e.view.leader = some x := by
        rw [h.leader, ← hx, List.getLast?_append]
        cases e.initial <;> rfl
      cases hy
      rintro rfl
      rw [hview] at hne
      exact hne hbefore
    · rw [hchanges]
      exact notify_hears hnotify h.hears
    · rw [hchanges]
      exact notify_informed hnotify h.hears h.informed

end Elector

namespace LeaderSwarm

@[simp] theorem memberPast_member (s : LeaderSwarm) (a : RejoinAction)
    (past : List (LeaderSwarm × LeaderAction)) :
    memberPast ((s, .member a) :: past) = (s.members, a) :: memberPast past := rfl

@[simp] theorem memberPast_start (s : LeaderSwarm) (n : String)
    (past : List (LeaderSwarm × LeaderAction)) :
    memberPast ((s, .start n) :: past) = memberPast past := rfl

@[simp] theorem memberPast_onLeaderChange (s : LeaderSwarm) (n : String)
    (past : List (LeaderSwarm × LeaderAction)) :
    memberPast ((s, .onLeaderChange n) :: past) = memberPast past := rfl

@[simp] theorem memberPast_updateLeader (s : LeaderSwarm) (n : String) (calls : List CallbackCall)
    (past : List (LeaderSwarm × LeaderAction)) :
    memberPast ((s, .updateLeader n calls) :: past) = memberPast past := rfl

@[simp] theorem members_follow (s : LeaderSwarm) (members : MemberSwarm) (a : RejoinAction) :
    (s.follow members a).members = members := by
  cases a with
  | restart n config => rfl
  | act a => cases a <;> rfl

/-- Tables and messages are backed, the elections are in order and the labels are exact. -/
structure Ok (past : List (MemberSwarm × RejoinAction)) (s : LeaderSwarm) : Prop where
  members : s.members.Backed past
  elector : ∀ n, (s.elector n).Ok past n
  labelled : ∀ n, (s.members.node n).Labelled (s.elector n).ticked

theorem Ok.init (hpositive : ∀ n, 0 < (config n).suspectAfter) : (init config).Ok [] where
  members := .init config
  elector n := .init [] n
  labelled n := ⟨hpositive n, fun t ht => (by cases ht), fun k p hk => (by cases hk)⟩

theorem Ok.labelled_became {s : LeaderSwarm} (h : s.Ok past)
    (hr : r.1.Labelled (s.elector n).ticked) (k : String) :
    ((s.members.became n r).node k).Labelled (s.elector k).ticked := by
  by_cases hkn : k = n
  · subst hkn
    rw [MemberSwarm.node_became_self]
    exact hr
  · rw [MemberSwarm.node_became_of_ne _ _ hkn]
    exact h.labelled k

theorem Ok.act {s : LeaderSwarm} {m : MemberSwarm} (h : s.Ok past)
    (hs : s.members.step a = some m) :
    (s.follow m (.act a)).Ok ((s.members, .act a) :: past) := by
  have hbacked := h.members.step hs
  have helector := fun n => (h.elector n).mono (List.subset_cons_self (s.members, .act a) past)
  cases a with
  | bootstrap n =>
    cases hs
    exact ⟨hbacked, helector, h.labelled_became (h.labelled n)⟩
  | tick n elapsed =>
    cases hs
    refine ⟨hbacked, fun k => ?_, fun k => ?_⟩
    · by_cases hkn : k = n
      · subst hkn
        have hk := helector k
        simp only [follow, Function.update_self]
        exact ⟨hk.selfId, hk.leader, hk.changes, hk.real, hk.hears, hk.informed⟩
      · simp only [follow, Function.update_of_ne hkn]
        exact helector k
    · by_cases hkn : k = n
      · subst hkn
        simp only [follow, Function.update_self, MemberSwarm.node_became_self]
        exact (h.labelled k).tick elapsed
      · simp only [follow, Function.update_of_ne hkn, MemberSwarm.node_became_of_ne _ _ hkn]
        exact h.labelled k
  | swimProbe n elapsed pick =>
    obtain ⟨⟨m, out⟩, hprobe, hs⟩ := Option.bind_eq_some_iff.1 hs
    cases hs
    obtain ⟨hpeers, _, hnow, _, _⟩ := Member.swimProbe_spec hprobe
    exact ⟨hbacked, helector, h.labelled_became ((h.labelled n).later hpeers hnow)⟩
  | gossipOnce n =>
    refine ⟨hbacked, helector, ?_⟩
    simp only [MemberSwarm.step] at hs
    split at hs
    · cases hs
      exact h.labelled
    · cases hs
      exact h.labelled_became (h.labelled n)
  | deliver n i elapsed =>
    obtain ⟨msg, _, hs⟩ := Option.bind_eq_some_iff.1 hs
    cases hs
    exact ⟨hbacked, helector, h.labelled_became ((h.labelled n).route elapsed msg)⟩

theorem Ok.restart {s : LeaderSwarm} (h : s.Ok past) (n : String)
    (hpositive : 0 < config.suspectAfter) :
    (s.follow (s.members.restart n config) (.restart n config)).Ok
      ((s.members, .restart n config) :: past) := by
  refine ⟨h.members.restart n config, fun k => ?_, fun k => ?_⟩
  · by_cases hkn : k = n
    · subst hkn
      simp only [follow, Function.update_self]
      exact .init _ k
    · simp only [follow, Function.update_of_ne hkn]
      exact (h.elector k).mono (List.subset_cons_self _ _)
  · by_cases hkn : k = n
    · subst hkn
      simp only [follow, Function.update_self, MemberSwarm.node_restart_self]
      exact ⟨hpositive, fun t ht => (by cases ht), fun x p hx => (by cases hx)⟩
    · simp only [follow, Function.update_of_ne hkn, MemberSwarm.node_restart_of_ne _ _ hkn]
      exact h.labelled k

theorem Ok.elected {s : LeaderSwarm} (h : s.Ok past) (he : e.Ok past n)
    (ht : e.ticked = (s.elector n).ticked) :
    Ok past { s with elector := Function.update s.elector n e } where
  members := h.members
  elector k := by
    by_cases hkn : k = n
    · subst hkn
      simp only [Function.update_self]
      exact he
    · simp only [Function.update_of_ne hkn]
      exact h.elector k
  labelled k := by
    by_cases hkn : k = n
    · subst hkn
      simp only [Function.update_self, ht]
      exact h.labelled k
    · simp only [Function.update_of_ne hkn]
      exact h.labelled k

theorem Ok.step {s : LeaderSwarm} (h : s.Ok (memberPast past)) (hmeets : s.Meets a)
    (hs : s.step a = some s') : s'.Ok (memberPast ((s, a) :: past)) := by
  cases a with
  | member a =>
    obtain ⟨members, hm, rfl⟩ := Option.map_eq_some_iff.1 hs
    cases a with
    | restart n config =>
      cases hm
      exact h.restart n hmeets
    | act a => exact h.act hm
  | start n =>
    cases hs
    exact h.elected ((h.elector n).start (h.members.node n) hmeets) rfl
  | onLeaderChange n =>
    cases hs
    exact h.elected (h.elector n).onLeaderChange rfl
  | updateLeader n calls =>
    obtain ⟨e, he, rfl⟩ := Option.map_eq_some_iff.1 hs
    exact h.elected ((h.elector n).updateLeader (h.members.node n) he)
      (Elector.updateLeader_cases he).2.2.1

theorem Ok.run {s u : LeaderSwarm} (h : s.Ok (memberPast past))
    (hrun : Run LeaderSwarm.step s past' u) (hmeets : ∀ p ∈ past', p.1.Meets p.2) :
    u.Ok (memberPast (past' ++ past)) := by
  induction hrun with
  | start => exact h
  | next _ hs ih =>
    exact (ih (fun p hp => hmeets p (List.mem_cons_of_mem _ hp))).step
      (hmeets _ List.mem_cons_self) hs

theorem Ok.candidates_eq {s : LeaderSwarm} (h : s.Ok past) (n : String) :
    s.candidates n =
      {k | k = n ∨ k ∈ (s.members.node n).peers.alive.map Peer.nodeId} := by
  ext k
  refine or_congr Iff.rfl ?_
  rw [PeerTable.mem_alive_ids]
  constructor
  · rintro ⟨p, hp, hfresh⟩
    exact ⟨p, hp, ((h.labelled n).label k p hp).2 hfresh⟩
  · rintro ⟨p, hp, hstate⟩
    exact ⟨p, hp, ((h.labelled n).label k p hp).1 hstate⟩

theorem Ok.updateLeader {s : LeaderSwarm} (h : s.Ok past)
    (hs : s.step (.updateLeader n calls) = some s') :
    ∃ l, (s'.elector n).view.leader = some l ∧ IsLeast (s.candidates n) l := by
  obtain ⟨e, he, rfl⟩ := Option.map_eq_some_iff.1 hs
  refine ⟨electLeader n ((s.members.node n).peers.alive.map Peer.nodeId), ?_, ?_⟩
  · dsimp only
    rw [Function.update_self, (Elector.updateLeader_cases he).1, (h.elector n).selfId]
  · rw [h.candidates_eq]
    exact isLeast_electLeader _ _

/-- The nodes of a group do not start again, and whenever one of them elects a leader, the group is
what it takes for alive. -/
def Agrees (C : Set String) (s : LeaderSwarm) : LeaderAction → Prop
  | .member (.restart n _) => n ∉ C
  | .member (.act _) => True
  | .start n => n ∉ C
  | .onLeaderChange _ => True
  | .updateLeader n _ => n ∈ C → s.candidates n = C

def Elected (past : List (LeaderSwarm × LeaderAction)) (n : String) : Prop :=
  ∃ calls, .updateLeader n calls ∈ past.map Prod.snd

/-- A node of the group has elected its least member, or nobody since, and has changed its leader
at most once. -/
def Settled (before : Elector) (l : String) (elected : Prop) (e : Elector) : Prop :=
  (e.view.leader = some l ∧ e.changes.length ≤ before.changes.length + 1) ∨
    ¬ elected ∧ e.changes = before.changes

theorem elector_step {s : LeaderSwarm} (hs : s.step a = some s') (hstart : a ≠ .start n)
    (helect : ∀ calls, a ≠ .updateLeader n calls)
    (hrestart : ∀ c, a ≠ .member (.restart n c)) :
    (s'.elector n).view = (s.elector n).view ∧
      (s'.elector n).changes = (s.elector n).changes := by
  cases a with
  | member a =>
    obtain ⟨m, _, rfl⟩ := Option.map_eq_some_iff.1 hs
    cases a with
    | restart k c =>
      have hnk : n ≠ k := by
        rintro rfl
        exact hrestart c rfl
      simp only [follow, Function.update_of_ne hnk, and_self]
    | act a =>
      cases a with
      | tick k elapsed =>
        by_cases hnk : n = k
        · subst hnk
          simp only [follow, Function.update_self, and_self]
        · simp only [follow, Function.update_of_ne hnk, and_self]
      | bootstrap k => exact ⟨rfl, rfl⟩
      | swimProbe k elapsed pick => exact ⟨rfl, rfl⟩
      | gossipOnce k => exact ⟨rfl, rfl⟩
      | deliver k i elapsed => exact ⟨rfl, rfl⟩
  | start k =>
    cases hs
    have hnk : n ≠ k := by
      rintro rfl
      exact hstart rfl
    simp only [Function.update_of_ne hnk, and_self]
  | onLeaderChange k =>
    cases hs
    by_cases hnk : n = k
    · subst hnk
      simp only [Function.update_self, Elector.onLeaderChange, and_self]
    · simp only [Function.update_of_ne hnk, and_self]
  | updateLeader k calls =>
    obtain ⟨e, _, rfl⟩ := Option.map_eq_some_iff.1 hs
    have hnk : n ≠ k := by
      rintro rfl
      exact helect calls rfl
    simp only [Function.update_of_ne hnk, and_self]

theorem Ok.changed {s : LeaderSwarm} (h : s.Ok past)
    (hs : s.step (.updateLeader n calls) = some s') (hl : IsLeast (s.candidates n) l) :
    (s'.elector n).view.leader = some l ∧ (s'.elector n).changes =
      if (s.elector n).view.leader = some l then (s.elector n).changes
      else (s.elector n).changes ++ [l] := by
  rw [h.candidates_eq] at hl
  have heq := (isLeast_electLeader n _).unique hl
  obtain ⟨e, he, rfl⟩ := Option.map_eq_some_iff.1 hs
  obtain ⟨hview, _, _, hcases⟩ := Elector.updateLeader_cases he
  rw [(h.elector n).selfId, heq] at hview hcases
  dsimp only
  rw [Function.update_self]
  rw [hview] at hcases ⊢
  refine ⟨rfl, ?_⟩
  rcases hcases with ⟨hsame, hchanges, _⟩ | ⟨hne, hchanges, _⟩
  · rw [if_pos hsame, hchanges]
  · rw [if_neg hne, hchanges]

theorem Ok.settled {s u : LeaderSwarm} (h : s.Ok (memberPast past))
    (hrun : Run LeaderSwarm.step s past' u)
    (hsteps : ∀ p ∈ past', p.1.Meets p.2 ∧ p.1.Agrees C p.2) (hl : IsLeast C l) (hn : n ∈ C) :
    Settled (s.elector n) l (Elected past' n) (u.elector n) := by
  induction hrun with
  | start => exact .inr ⟨fun ⟨_, h⟩ => (by cases h), rfl⟩
  | @next past' v a u hr hs ih =>
    have hbefore := fun p hp => hsteps p (List.mem_cons_of_mem _ hp)
    have hv := h.run hr (fun p hp => (hbefore p hp).1)
    have hagrees := (hsteps _ List.mem_cons_self).2
    have hsettled := ih hbefore
    by_cases helect : ∃ calls, a = .updateLeader n calls
    · obtain ⟨calls, rfl⟩ := helect
      have hleast : IsLeast (v.candidates n) l := by
        rw [hagrees hn]
        exact hl
      obtain ⟨hleader, hchanges⟩ := hv.changed hs hleast
      refine .inl ⟨hleader, ?_⟩
      rw [hchanges]
      by_cases hsame : (v.elector n).view.leader = some l
      · rw [if_pos hsame]
        cases hsettled with
        | inl hdone => exact hdone.2
        | inr hsince => exact (congrArg List.length hsince.2).trans_le (Nat.le_succ _)
      · rw [if_neg hsame, List.length_append]
        cases hsettled with
        | inl hdone => exact absurd hdone.1 hsame
        | inr hsince => exact (congrArg (List.length · + 1) hsince.2).le
    · have helect : ∀ calls, a ≠ .updateLeader n calls := not_exists.1 helect
      have hstart : a ≠ .start n := by
        rintro rfl
        exact hagrees hn
      have hrestart : ∀ c, a ≠ .member (.restart n c) := by
        rintro c rfl
        exact hagrees hn
      have helected : Elected ((v, a) :: past') n ↔ Elected past' n :=
        exists_congr (fun calls => by
          rw [List.map_cons, List.mem_cons, or_iff_right (Ne.symm (helect calls))])
      obtain ⟨hview, hchanges⟩ := elector_step hs hstart helect hrestart
      unfold Settled at hsettled ⊢
      rw [hview, hchanges, helected]
      exact hsettled

/-- A leader is its own node or a node that has spoken, and the callbacks hear of its changes and
of nothing else, all of them as long as none registered before has raised. An election chooses the
least of the node and the peers whose latest news was fresh at its latest tick. While that is the
same group for all nodes of the group, each of them has the least one as its leader from its first
election on, after at most one more change. -/
theorem leaders_agree (hpositive : ∀ n, 0 < (config n).suspectAfter)
    (hrun : Run step (init config) past s) (hmeets : ∀ p ∈ past, p.1.Meets p.2) :
    (∀ n, (s.elector n).Ok (memberPast past) n) ∧
    (∀ n calls s', s.step (.updateLeader n calls) = some s' →
      ∃ l, (s'.elector n).view.leader = some l ∧ IsLeast (s.candidates n) l) ∧
    ∀ C past' u, Run step s past' u → (∀ p ∈ past', p.1.Meets p.2 ∧ p.1.Agrees C p.2) →
      ∀ l, IsLeast C l → ∀ n ∈ C, Elected past' n →
        (u.elector n).view.leader = some l ∧
          (u.elector n).changes.length ≤ (s.elector n).changes.length + 1 := by
  have hinit : (init config).Ok (memberPast []) := .init hpositive
  have hok := hinit.run hrun hmeets
  rw [List.append_nil] at hok
  refine ⟨hok.elector, fun n calls s' hs => hok.updateLeader hs, ?_⟩
  intro C past' u hrun' hsteps l hl n hn helected
  cases hok.settled hrun' hsteps hl hn with
  | inl hdone => exact hdone
  | inr hsince => exact absurd helected hsince.1

/-- Node `b` starts alone, joins `a`, learns of it and follows it. Its first callback raises, so its
second one is not told. -/
theorem leaders_agree_of_join : ∃ past s past' u,
    Run step (init defaultConfig) past s ∧ Run step s past' u ∧
      (s.elector "b").view.leader = some "b" ∧ (u.elector "b").view.leader = some "a" ∧
      (u.elector "b").callbacks.map LeaderCallback.told = [["a"], []] ∧
      Informed (u.elector "b").changes (u.elector "b").callbacks := by
  have hpositive : ∀ n, 0 < (defaultConfig n).suspectAfter := fun n => by
    change (0 : ℚ) < 3
    norm_num
  obtain ⟨past, s, hr, hmeets, he⟩ := exists_run_of_execWhere step Meets (init defaultConfig)
    [.onLeaderChange "b", .start "a", .start "b", .onLeaderChange "b",
      .member (.act (.bootstrap "b")), .member (.act (.deliver "a" 0 (after 0))),
      .member (.act (.deliver "b" 1 (after 0)))]
    (fun s => ((s.members.node "b").peers.alive.map Peer.nodeId, (s.elector "b").view.leader,
      ((s.step (.updateLeader "b" [⟨0, true⟩])).map (fun u =>
        (u.elector "b").callbacks.map LeaderCallback.told))))
    (["a"], some "b", some [["a"], []]) (by decide +kernel)
  simp only [Prod.mk.injEq] at he
  obtain ⟨halive, hbefore, hcalls⟩ := he
  obtain ⟨u, hu, htold⟩ := Option.map_eq_some_iff.1 hcalls
  obtain ⟨_, _, hagree⟩ := leaders_agree hpositive hr hmeets
  have hinit : (init defaultConfig).Ok (memberPast []) := .init hpositive
  have hstate := hinit.run hr hmeets
  have hgroup : s.candidates "b" = {"a", "b"} := by
    rw [hstate.candidates_eq, halive]
    ext k
    simp [or_comm]
  have hleast : IsLeast ({"a", "b"} : Set String) "a" :=
    ⟨.inl rfl, fun k hk => by rcases hk with rfl | rfl <;> decide⟩
  have hsteps : ∀ p ∈ [(s, LeaderAction.updateLeader "b" [⟨0, true⟩])],
      p.1.Meets p.2 ∧ p.1.Agrees {"a", "b"} p.2 := by
    intro p hp
    rw [List.mem_singleton.1 hp]
    exact ⟨trivial, fun _ => hgroup⟩
  have hrun : Run step s [(s, .updateLeader "b" [⟨0, true⟩])] u := Run.start.next hu
  obtain ⟨hleader, _⟩ := hagree {"a", "b"} _ _ hrun hsteps "a" hleast "b" (.inr rfl)
    ⟨_, List.mem_cons_self⟩
  have hmeets' : ∀ p ∈ (s, LeaderAction.updateLeader "b" [⟨0, true⟩]) :: past, p.1.Meets p.2 :=
    List.forall_mem_cons.2 ⟨trivial, hmeets⟩
  obtain ⟨helectors, _⟩ := leaders_agree hpositive (hr.next hu) hmeets'
  exact ⟨past, s, _, u, hr, hrun, hbefore, hleader, htold, (helectors "b").informed⟩

end LeaderSwarm

end Suprime
