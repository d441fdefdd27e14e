/-!
# Rejected patterns

Why a pattern was not compiled. Everything here is about the input: a pattern that is not a regular
expression of the supported form, or a token that cannot be given out.
-/

namespace PatternAutomata

/-- What is wrong with the text of a pattern. -/
inductive Defect where
  /-- The pattern ends where a byte or a group is needed. -/
  | expectedOperand
  /-- An operator stands where a byte or a group is needed. -/
  | unexpectedOperator
  /-- The pattern ends inside a group. -/
  | unclosedGroup
  /-- A closing parenthesis stands where no group can end. -/
  | unopenedGroup
  /-- A byte of 128 or more. -/
  | nonAscii
  /-- A zero byte, which stands for no byte at all in an automaton. -/
  | nulByte
  /-- A group opens inside as many groups as are allowed. -/
  | nestLimitExceeded (limit : UInt32)
deriving DecidableEq

def Defect.message : Defect → String
  | expectedOperand => "expected more characters"
  | unexpectedOperator => "expected character instead of operator"
  | unclosedGroup => "expected ) to match previous ("
  | unopenedGroup => "unexpected )"
  | nonAscii => "ASCII value >= 128 not supported"
  | nulByte => "NUL byte not supported"
  | nestLimitExceeded limit => s!"group nesting exceeds the limit of {limit}"

/-- Why a pattern was rejected. -/
inductive PatternError where
  /-- The pattern has a defect at a byte index. -/
  | malformed (defect : Defect) (index : Nat) (pattern : String)
  /-- The token is the one that means that a node does not accept. -/
  | reservedToken (token : UInt32)
deriving DecidableEq

namespace PatternError

/-- What is wrong, without saying where. -/
def reason : PatternError → String
  | malformed defect _ _ => defect.message
  | reservedToken token => s!"accept token {token} is reserved and cannot be assigned"

/-- What is wrong, and where. -/
def message : PatternError → String
  | malformed defect index pattern => s!"in regex at {index} in '{pattern}': {defect.message}"
  | reservedToken token => (reservedToken token).reason

end PatternError

end PatternAutomata
