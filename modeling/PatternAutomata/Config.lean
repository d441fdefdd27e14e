import PatternAutomata.Arena

/-!
# Build options

Options may be left open. Laying one set of options over another keeps what the upper one leaves
open, and each option that stays open has a default.
-/

namespace PatternAutomata

/-- Options for building an automaton, each of which may be left open. -/
structure Config where
  arenaCapacity : Option UInt64 := none
  nestLimit : Option UInt32 := none
  /-- Whether reduction removes the nodes that can no longer be reached. -/
  compact : Option Bool := none
deriving DecidableEq

namespace Config

/-- The ceiling of the arena: 1 MiB unless chosen. -/
def chosenArenaCapacity (config : Config) : UInt64 :=
  config.arenaCapacity.getD Arena.defaultCapacity

/-- How deep groups may nest: 250 unless chosen. -/
def chosenNestLimit (config : Config) : UInt32 := config.nestLimit.getD 250

/-- Whether reduction removes dead nodes: it does not unless chosen. -/
def chosenCompact (config : Config) : Bool := config.compact.getD false

/-- Lays the options of `upper` over those of `lower`. -/
def overlay (lower upper : Config) : Config where
  arenaCapacity := upper.arenaCapacity <|> lower.arenaCapacity
  nestLimit := upper.nestLimit <|> lower.nestLimit
  compact := upper.compact <|> lower.compact

end Config

end PatternAutomata
