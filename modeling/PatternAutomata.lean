import PatternAutomata.Automaton.Dot
import PatternAutomata.Builder
import PatternAutomata.Inspect
import PatternAutomata.Proofs.Budget
import PatternAutomata.Proofs.Intact
import PatternAutomata.Proofs.Liveness
import PatternAutomata.Proofs.PositionAutomaton
import PatternAutomata.Proofs.Scan
import PatternAutomata.Proofs.Usage
import PatternAutomata.Proofs.Construction
import PatternAutomata.Proofs.Drawing
import PatternAutomata.Proofs.Elimination
import PatternAutomata.Proofs.Reinsertion
import PatternAutomata.Proofs.Forgetting
import PatternAutomata.Proofs.Idempotence
import PatternAutomata.Proofs.Shape
import PatternAutomata.Proofs.Built
import PatternAutomata.Proofs.Containment
import PatternAutomata.Proofs.Accounts
import PatternAutomata.Proofs.Growth
import PatternAutomata.Proofs.Overflow
import PatternAutomata.Proofs.Rows
import PatternAutomata.Proofs.Closure
