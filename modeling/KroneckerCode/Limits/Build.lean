import KroneckerCode.Draws.Uniform
import KroneckerCode.Limits.Config
import KroneckerCode.Limits.Event
import KroneckerCode.Limits.Search
import KroneckerCode.Limits.Table

/-!
# Building tables

Dimension zero needs no search. For the others the table is built upward from
dimension one and is complete at the first dimension for which a search finds
nothing, because then not even bounds of one fit, and with more components they
fit still less.

The draws of a search are uniform within the percentage of its parameters. They
are an argument all the same, `dice`, a source of draws for each spread: what is
proved about a table holds for any dice that keep to their spread. Every search
also tells its log; a search that is refused has none.
-/

namespace KroneckerCode.Limits

variable {σ : Type}

/-- The entries from dimension `m` on, and the log of their searches. -/
def searchFrom (draws : Draws σ) (growth : Nat) (s : WordSize) :
    (fuel : Nat) → (m : Nat) → List (Entry s) × List Event
  | 0, _ => ([], [])
  | fuel + 1, m =>
    let found := Search.run draws growth s m
    let steps := found.visited.map (Event.step m)
    match found.best with
    | none => ([], steps)
    | some e =>
      let (entries, events) := searchFrom draws growth s fuel (m + 1)
      (e :: entries, steps ++ .derived s.name e.dimension (toString e) :: events)

/--
The table of all dimensions, and its log. Not even bounds of one fit for as many
components as a word has bits, so that many searches are enough.
-/
def searchAll (draws : Draws σ) (growth : Nat) (s : WordSize) : Table s × List Event :=
  let (entries, events) := searchFrom draws growth s s.bits 1
  let table : Table s := { entries := Entry.empty :: entries }
  (table, events ++ [.built s.name table.maxDimension])

/-- The entry of one dimension, if words of the size can code it, and the log of the search. -/
def findLoggedWith (dice : Nat → Draws σ) (s : WordSize) (m : Nat) (config : Config) :
    Except CodecError (Option (Entry s) × List Event) := do
  config.validate
  if m = 0 then
    return (some Entry.empty, [])
  else
    let found := Search.run (dice config.percent) config.growth s m
    return (found.best, found.visited.map (Event.step m))

/-- The table of all dimensions, and the log of the searches. -/
def buildLoggedWith (dice : Nat → Draws σ) (s : WordSize) (config : Config) :
    Except CodecError (Table s × List Event) := do
  config.validate
  return searchAll (dice config.percent) config.growth s

/-- The entry of one dimension, if words of the size can code it. -/
def findWith (dice : Nat → Draws σ) (s : WordSize) (m : Nat) (config : Config) :
    Except CodecError (Option (Entry s)) :=
  (findLoggedWith dice s m config).map (·.1)

/-- The table of all dimensions. -/
def buildWith (dice : Nat → Draws σ) (s : WordSize) (config : Config) :
    Except CodecError (Table s) :=
  (buildLoggedWith dice s config).map (·.1)

/-- The entry of one dimension and the log of its search, with uniform draws. -/
def findLogged : (s : WordSize) → (m : Nat) → Config →
    Except CodecError (Option (Entry s) × List Event) :=
  findLoggedWith Draws.uniform

/-- The table of all dimensions and the log of its searches, with uniform draws. -/
def buildLogged : (s : WordSize) → Config → Except CodecError (Table s × List Event) :=
  buildLoggedWith Draws.uniform

/-- The entry of one dimension, with uniform draws. -/
def find (s : WordSize) (m : Nat) (config : Config) : Except CodecError (Option (Entry s)) :=
  findWith Draws.uniform s m config

/-- The table of all dimensions, with uniform draws. -/
def build (s : WordSize) (config : Config) : Except CodecError (Table s) :=
  buildWith Draws.uniform s config

end KroneckerCode.Limits
