import DeSearch.Manager
import DeSearch.Lib.Run

/-!
# The pipeline as one system

One manager and any number of executors over one Kanban. An action is one step of the manager, one
step of an executor, or the crash of an executor, which loses everything it held in memory; a
restarted process is an idle one. A run is any list of actions, so every interleaving and every
crash is covered.
-/

namespace DeSearch

/-- A deployment: the platform, the sorting algorithm, and the role of each process. -/
structure Deployment where
  platform : Platform
  sort : LastCharSort
  role : Nat → Role

/-- The state of the whole system. -/
structure State where
  kanban : Kanban
  manager : Manager
  procs : Nat → Executor

/-- A manager and idle executors on an empty Kanban. -/
def State.init : State := ⟨.empty, .init, fun _ => .idle⟩

/-- What can happen next. -/
inductive Action where
  | manager
  /-- a step of process `p`, with what the block source answers should it ask, and the order of the
  hash maps should it make a call -/
  | exec (p : Nat) (answers : Inputs)
  | crash (p : Nat)

/-- The effect of an action. -/
def Deployment.step (D : Deployment) : Action → State → State
  | .manager, s =>
      let r := s.manager.step D.platform D.sort s.kanban
      { s with manager := r.1, kanban := r.2 }
  | .exec p answers, s =>
      let r := (s.procs p).step D.platform (D.role p) answers s.kanban
      { s with procs := Function.update s.procs p r.1, kanban := r.2 }
  | .crash p, s => { s with procs := Function.update s.procs p .idle }

/-- The block source: what `get_steemit_item` may return for a block number. It appends what
`fgets` reads to a string as C strings, so there is no NUL in it. -/
structure Source where
  Answers : Int → Bytes → Prop
  nulFree : ∀ {n x}, Answers n x → NulFree x

/-- A crawler that downloads its blocks gets answers of the block source. -/
def Answered (src : Source) (s : State) : Action → Prop
  | .exec p answers => ∀ e b i got, s.procs p = .gather (.crawl e b i) got →
      List.Forall₂ src.Answers (Task.crawl e b i).blocks answers.values
  | _ => True

end DeSearch
