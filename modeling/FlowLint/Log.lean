/-! # Log records -/
namespace FlowLint

inductive LogLevel where
  | debug
  | info
  | warning
  deriving DecidableEq

namespace LogLevel

def name : LogLevel → String
  | debug => "DEBUG"
  | info => "INFO"
  | warning => "WARNING"

def severity : LogLevel → Nat
  | debug => 10
  | info => 20
  | warning => 30

/-- The least level that is shown: warnings, from one on progress, from two on details. -/
def ofVerbosity (n : Int) : LogLevel :=
  if 2 ≤ n then debug else if n = 1 then info else warning

end LogLevel

inductive Logger where
  | pipeline
  | solver
  | reachability
  | deadCode
  deriving DecidableEq

def Logger.name : Logger → String
  | pipeline => "dataflow_dce.analysis"
  | solver => "dataflow_dce.dataflow_engine"
  | reachability => "dataflow_dce.reachability"
  | deadCode => "dataflow_dce.deadcode"

structure LogRecord where
  level : LogLevel
  logger : Logger
  message : String

namespace LogRecord

def text (r : LogRecord) : String := r.level.name ++ " " ++ r.logger.name ++ ": " ++ r.message

def isShown (threshold : LogLevel) (r : LogRecord) : Bool :=
  threshold.severity ≤ r.level.severity

end LogRecord

end FlowLint
