import PatternAutomata.Arena

/-!
# Copies of what is in use

Something in use can be copied at any time. The copies form a stack; the latest one can be put in the
place of what is in use. Between that, what is in use answers requests, and each request may charge
an arena. A copy is charged for by nobody, and taking it back refunds nothing.
-/

namespace PatternAutomata

/-- Something in use, and the copies kept of it, the latest first. -/
structure Versions (σ : Type) where
  current : σ
  saved : List σ := []

namespace Versions

/-- What is done with something in use. -/
inductive Command (ρ : Type) where
  | request (request : ρ)
  | save
  | restore

variable {σ ρ α : Type}

def save (versions : Versions σ) : Versions σ :=
  { versions with saved := versions.current :: versions.saved }

/-- Takes back the latest copy, if there is one. -/
def restore (versions : Versions σ) : Versions σ :=
  match versions.saved with
  | [] => versions
  | kept :: saved => { current := kept, saved }

variable (answer : σ → ρ → Charged (α × σ))

/-- Carries out a command. Only a request is answered. -/
def obey (versions : Versions σ) : Command ρ → Charged (Option α × Versions σ)
  | .request request => do
    let (reply, current) ← answer versions.current request
    return (some reply, { versions with current })
  | .save => return (none, versions.save)
  | .restore => return (none, versions.restore)

/-- Carries out commands one after the other. -/
def obeyAll (versions : Versions σ) : List (Command ρ) → Charged (List (Option α) × Versions σ)
  | [] => return ([], versions)
  | command :: rest => do
    let (reply, versions) ← versions.obey answer command
    let (replies, versions) ← obeyAll versions rest
    return (reply :: replies, versions)

end Versions

/-- What requests do to an ideal value, and the replies that they may get from it. -/
structure Specification (τ ρ α : Type) where
  next : τ → ρ → τ
  Admits : τ → ρ → α → Prop

namespace Specification

variable {τ ρ α : Type}

/-- Whether commands to an ideal value in use may be answered in some way. -/
def AdmitsAll (specification : Specification τ ρ α) :
    Versions τ → List (Versions.Command ρ) → List (Option α) → Prop
  | _, [], [] => True
  | ideal, .request request :: rest, some reply :: replies =>
    specification.Admits ideal.current request reply ∧
      specification.AdmitsAll
        { ideal with current := specification.next ideal.current request } rest replies
  | ideal, .save :: rest, none :: replies => specification.AdmitsAll ideal.save rest replies
  | ideal, .restore :: rest, none :: replies => specification.AdmitsAll ideal.restore rest replies
  | _, _, _ => False

end Specification

end PatternAutomata
