/-!
Log records: a level, the name of the logger, and a message.
-/
namespace DataModel.Log

inductive Level where
  | debug | info | warning | error
  deriving DecidableEq

def Level.name : Level → String
  | .debug => "DEBUG"
  | .info => "INFO"
  | .warning => "WARNING"
  | .error => "ERROR"

def Level.number : Level → Nat
  | .debug => 10
  | .info => 20
  | .warning => 30
  | .error => 40

structure Record where
  level : Level
  logger : String
  message : String
  deriving DecidableEq

end DataModel.Log
