import Mathlib.Data.List.MinMax
import Mathlib.Data.Finset.Basic
import Suprime.Store

namespace Suprime
set_option autoImplicit true

def TASK_PREFIX : Str := ['_', '_', 't', 'a', 's', 'k', '_', '_', '/']

def CLAIM_PREFIX : Str := ['_', '_', 'c', 'l', 'a', 'i', 'm', '_', '_', '/']

inductive TaskState
  | PENDING
  | DONE
  | FAILED
  deriving DecidableEq

structure Task (α : Type) where
  id : Str
  kind : Str
  args : α
  state : TaskState
  submittedBy : Str
  owner : Option Str
  result : α
  error : Option Str
  deriving DecidableEq

/-- What the store of a swarm of task boards holds: the dicts of tasks and claims, and whatever
the application writes under keys of its own. -/
inductive Stored (α : Type)
  | none
  | task (t : Task α)
  | claim (nodeId : Str) (claimTs : ℚ)
  | plain (v : α)
  deriving DecidableEq

instance : PyNone (Stored α) := ⟨.none⟩

abbrev TaskStore (α : Type) := DistributedStore ℚ Str Str (Stored α)

/-- How a handler ended. -/
inductive HandlerOutcome (α : Type)
  | returned (result : α)
  | raised (error : Str)
  deriving DecidableEq

/-- The task after its handler ended at `owner`. -/
def Task.ended (t : Task α) (owner : Str) : HandlerOutcome α → Task α
  | .returned result => { t with state := .DONE, result := result, owner := some owner }
  | .raised error => { t with state := .FAILED, error := some error, owner := some owner }

structure TaskBoard where
  nodeId : Str
  claimGraceRounds : ℕ
  handlers : List Str
  executed : List Str
  claimAge : Dict Str ℕ
  claimSig : Dict Str (Finset (Str × ℚ))
  loadWeight : Option ℚ

namespace TaskBoard

def init (n : Str) (claimGraceRounds : ℕ) : TaskBoard :=
  ⟨n, claimGraceRounds, [], [], .empty, .empty, none⟩

/-- The task that `submit` publishes. -/
def newTask [PyNone α] (n tid kind : Str) (args : α) : Task α :=
  ⟨tid, kind, args, .PENDING, n, none, pyNone, none⟩

/-- `Task.from_dict`, `none` where Python raises because there is no task to read. -/
def fromStored : Stored α → Option (Task α)
  | .task t => some t
  | _ => none

def getTask (st : TaskStore α) (taskId : Str) : Option (Task α) :=
  fromStored (st.get (TASK_PREFIX ++ taskId) .none)

def tasks (st : TaskStore α) : Option (List (Task α)) :=
  (st.items.filter (fun p => TASK_PREFIX.isPrefixOf p.1)).mapM (fun p => fromStored p.2)

def readClaim : Stored α → Option (Str × ℚ)
  | .claim nodeId claimTs => some (nodeId, claimTs)
  | _ => none

def claims (st : TaskStore α) (taskId : Str) : Option (Dict Str ℚ) := do
  let l ← (st.items.filter (fun p =>
    (CLAIM_PREFIX ++ taskId ++ ['/']).isPrefixOf p.1)).mapM (fun p => readClaim p.2)
  some (.ofList l)

/-- The earliest claim wins; the node id breaks ties. -/
def winner (claims : Dict Str ℚ) : Option Str :=
  (claims.items.argmin (fun kv => toLex (kv.2, kv.1))).map Prod.fst

/-- The claim that `_maybe_claim` writes, from the readings of the clock and of the load. -/
def maybeClaim (b : TaskBoard) (st : TaskStore α) (task : Task α) (clock load : ℚ) :
    Option (Str × Stored α) :=
  let claimKey := CLAIM_PREFIX ++ task.id ++ ['/'] ++ b.nodeId
  if st.contains claimKey then none
  else
    let claimTs :=
      match b.loadWeight with
      | none => clock
      | some weight => clock + load * weight
    some (claimKey, .claim b.nodeId claimTs)

/-- `_maybe_execute` up to the call of the handler: whether the handler is called. -/
def maybeExecute (b : TaskBoard) (claims : Dict Str ℚ) (task : Task α) : TaskBoard × Bool :=
  if task.id ∈ b.executed ∨ winner claims ≠ some b.nodeId then (b, false)
  else ({ b with executed := task.id :: b.executed }, true)

/-- One round of `evaluate` for a pending task after it was claimed. -/
def settle (b : TaskBoard) (claims : Dict Str ℚ) (task : Task α) : TaskBoard × Bool :=
  let age := (b.claimAge.get task.id).getD 0 + 1
  let sig := claims.items.toFinset
  let stable := b.claimSig.get task.id = some sig
  let b' := { b with
    claimAge := b.claimAge.set task.id age
    claimSig := b.claimSig.set task.id sig }
  if age < b.claimGraceRounds ∨ ¬ stable then (b', false) else b'.maybeExecute claims task

/-- What `evaluate` forgets about a task that is no longer pending. -/
def forget (b : TaskBoard) (taskId : Str) : TaskBoard :=
  { b with claimAge := b.claimAge.erase taskId, claimSig := b.claimSig.erase taskId }

end TaskBoard

end Suprime
