/-!
# The log of a search

A search reports what it does as events. Each has a level, which says how much
detail it is, and a log records the events up to a level of its own.
-/

namespace KroneckerCode.Limits

/-- How much detail an event is, or a log records. -/
inductive Level where
  | info | debug | trace
deriving DecidableEq, Repr

namespace Level

/-- The levels by number, from the coarsest on. -/
def detail : Level → Nat
  | info => 0
  | debug => 1
  | trace => 2

/-- Whether a log of this level records an event of the other. -/
def Records (log event : Level) : Prop := event.detail ≤ log.detail

instance (log event : Level) : Decidable (log.Records event) :=
  inferInstanceAs (Decidable (_ ≤ _))

end Level

/-- Something that happened in a search. -/
inductive Event where
  /-- A state with this greatest code was met. -/
  | step (dimension hMax : Nat)
  /-- The entry of a dimension was found. -/
  | derived (typeName : String) (dimension : Nat) (limits : String)
  /-- A table was completed. -/
  | built (typeName : String) (maxDimension : Nat)
deriving DecidableEq, Repr

namespace Event

/-- How much detail the event is. -/
def level : Event → Level
  | step .. => .trace
  | derived .. => .debug
  | built .. => .debug

/-- The text of the event. -/
def message : Event → String
  | step .. => "limit search step"
  | derived .. => "derived Kronecker limits"
  | built .. => "built Kronecker limit table"

end Event

/-- The events that a log of the level records, in their order. -/
def record (log : Level) (events : List Event) : List Event :=
  events.filter fun e => log.Records e.level

end KroneckerCode.Limits
