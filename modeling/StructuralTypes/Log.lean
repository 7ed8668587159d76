import StructuralTypes.Fault

namespace StructuralTypes.Log

inductive Level where
  | debug
  | warning

/-- The part of the library that makes an entry. -/
inductive Origin where
  | assignability
  | narrowing
  | companion
  | ledger

/-- The message of an entry is composed for whoever listens, and composing it can be a fault when a
type in it has no text. -/
structure Entry where
  level : Level
  origin : Origin
  message : Except Fault String

end StructuralTypes.Log
