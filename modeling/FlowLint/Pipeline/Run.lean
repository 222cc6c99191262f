import FlowLint.Pipeline.Job

/-! # Running plans

A pipeline is a plan that has been accepted: every name is that of a task, and every task comes
after the tasks whose results it reads.
-/
namespace FlowLint

structure Pipeline where
  jobs : List Job

namespace Pipeline

/-- Refuses the first job that comes before one that it needs. -/
def checkSchedule : (scheduled : List Task) → List Job → Except Error Unit
  | _, [] => .ok ()
  | scheduled, j :: rest =>
    match j.task.needs.find? (· ∉ scheduled) with
    | some t => .error (.unscheduled j.task.id t.id)
    | none => checkSchedule (j.task :: scheduled) rest

/-- Accepts a plan. Names are checked before the order. -/
def ofPlan (p : Plan) : Except Error Pipeline := do
  let jobs ← p.mapM Job.ofEntry
  checkSchedule [] jobs
  return ⟨jobs⟩

structure Outcome where
  store : Store
  log : List LogRecord
  error? : Option Error

/-- Runs jobs one after the other. A job that fails ends the run; the results before it stay. -/
def runJobs (m : Method) : List Job → Store → Outcome
  | [], s => ⟨s, [], none⟩
  | j :: rest, s =>
    let running : LogRecord :=
      ⟨.info, .pipeline, "running " ++ j.task.id ++ " on " ++ m.name⟩
    let out := j.run m s
    match out.result with
    | .error e => ⟨out.store, running :: out.log, some e⟩
    | .ok _ =>
      let after := runJobs m rest out.store
      { after with log := running :: out.log ++ after.log }

def run (p : Pipeline) (m : Method) (s : Store) : Outcome := runJobs m p.jobs s

/-- Runs a pipeline on methods without results. The first failure ends it. -/
def runEach (p : Pipeline) : List Method → Except Error (List Store × List LogRecord)
  | [] => .ok ([], [])
  | m :: rest =>
    let out := p.run m .empty
    match out.error? with
    | some e => .error e
    | none => do
      let (stores, log) ← p.runEach rest
      return (out.store :: stores, out.log ++ log)

def detect (p : Pipeline) (m : Method) (s : Store) : Except Error (Store × List Nat) :=
  let out := p.run m s
  match out.error? with
  | some e => .error e
  | none => do
    let dead ← (← out.store.get m Task.deadCode.id).read Artifact.positions?
    return (out.store, dead)

end Pipeline

end FlowLint
