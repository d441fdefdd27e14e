/-!
# Regular expressions over bytes

The expressions that patterns stand for: single bytes, one expression after another, one or another,
and any number of repetitions. There is no expression for the empty word alone or for no word.
-/

namespace PatternAutomata

/-- A regular expression. -/
inductive Regex where
  | literal (byte : UInt8)
  /-- One expression, then another. -/
  | concat (first second : Regex)
  | alternate (left right : Regex)
  /-- An expression any number of times, none included. -/
  | star (inner : Regex)
deriving DecidableEq

end PatternAutomata
