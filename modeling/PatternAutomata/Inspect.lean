import PatternAutomata.Workspace

/-!
# Texts that show values

Every value has a text that shows all of it: numbers in decimal, texts in quotes, records by name
and fields, sequences in brackets, tables in braces with their entries in the order of the slots.
-/

namespace PatternAutomata

/-- Values with a text that shows all of them. -/
class Inspect (α : Type) where
  inspect : α → String

export Inspect (inspect)

namespace Inspect

/-- Texts between an opening and a closing one, with commas between them. -/
def enclosed (left right : String) (texts : List String) : String :=
  left ++ ", ".intercalate texts ++ right

/-- The text of a record: its name, and its fields by name. -/
def record (name : String) (fields : List (String × String)) : String :=
  enclosed (name ++ " \x7b ") " \x7d" (fields.map fun (field, value) => field ++ ": " ++ value)

/-- A character inside quotes. -/
def quotedChar (c : Char) : String :=
  match c with
  | '\\' => "\\\\"
  | '\n' => "\\n"
  | '\t' => "\\t"
  | '\r' => "\\r"
  | c =>
    if c.toNat = 34 then "\\\""
    else if c.toNat = 0 then "\\0"
    else if c.toNat < 32 ∨ c.toNat = 127 then
      "\\u\x7b" ++ String.ofList (Nat.toDigits 16 c.toNat) ++ "\x7d"
    else String.singleton c

/-- The text of a text, in quotes. -/
def quoted (text : String) : String := "\"" ++ String.join (text.toList.map quotedChar) ++ "\""

instance : Inspect Nat := ⟨fun n => toString n⟩
instance : Inspect UInt8 := ⟨fun n => toString n⟩
instance : Inspect UInt32 := ⟨fun n => toString n⟩
instance : Inspect UInt64 := ⟨fun n => toString n⟩
instance : Inspect Int64 := ⟨fun n => toString n.toInt⟩
instance : Inspect Bool := ⟨fun b => if b then "true" else "false"⟩
instance : Inspect String := ⟨quoted⟩
instance : Inspect NodeId := ⟨NodeId.describe⟩

variable {α β κ ν σ τ : Type}

instance [Inspect α] [Inspect β] : Inspect (α × β) :=
  ⟨fun (a, b) => enclosed "(" ")" [inspect a, inspect b]⟩

instance [Inspect α] : Inspect (Option α) where
  inspect
    | none => "None"
    | some a => enclosed "Some(" ")" [inspect a]

instance [Inspect α] : Inspect (Buffer α) :=
  ⟨fun buffer => enclosed "[" "]" (buffer.toList.map inspect)⟩

instance : Inspect Block :=
  ⟨fun block => record "Block" [("offset", inspect block.offset), ("len", inspect block.size)]⟩

instance : Inspect Arena :=
  ⟨fun arena => record "Arena" [("capacity", inspect arena.capacity), ("offset", inspect arena.used),
    ("bytes_requested", inspect arena.requested)]⟩

def usage (arena : Arena) : String :=
  record "ArenaStats" [("capacity", inspect arena.capacity),
    ("bytes_requested", inspect arena.requested), ("bytes_used", inspect arena.used)]

/-- The text of the failure to make a handle. -/
def handleError (attempted : Nat) : String :=
  record "NodeIdError" [("attempted", inspect attempted)]

instance [Inspect κ] [Inspect ν] {hash : κ → UInt64} : Inspect (Table hash ν) :=
  ⟨fun table => enclosed "\x7b" "\x7d" (table.toList.map fun (key, value) =>
    inspect key ++ ": " ++ inspect value)⟩

/-- The text of a set of keys. -/
def keySet [Inspect κ] {hash : κ → UInt64} (set : KeySet hash) : String :=
  enclosed "\x7b" "\x7d" (set.keys.map inspect)

instance [Inspect κ] [Inspect ν] : Inspect (Slot κ ν) where
  inspect
    | .vacant => "empty"
    | .occupied key value distance =>
      inspect key ++ " => " ++ inspect value ++ " (" ++ inspect distance ++ ")"

/-- The text of every slot of a table. -/
def slots [Inspect κ] [Inspect ν] {hash : κ → UInt64} (table : Table hash ν) : String :=
  record "Iter" [("slots", enclosed "Iter([" "])" (table.slots.toList.map inspect))]

instance [Inspect τ] : Inspect (Edge τ) :=
  ⟨fun edge => record "Edge" [("dest", inspect edge.dest), ("data", inspect edge.data)]⟩

instance [Inspect σ] [Inspect τ] : Inspect (Node σ τ) :=
  ⟨fun node => record "Node" [("data", inspect node.data), ("edges", inspect node.edges)]⟩

/-- A number with leading zeros up to six digits. -/
def sixDigits (n : Nat) : String :=
  let digits := Nat.toDigits 10 n
  String.ofList (List.replicate (6 - digits.length) '0' ++ digits)

/-- The line of a node and of the edges that leave it. -/
def nodeLine [Inspect σ] [Inspect τ] (index : Nat) (node : Node σ τ) : String :=
  sixDigits index ++ ": " ++ inspect node.data ++
    String.join (node.edges.toList.map fun edge =>
      " " ++ inspect edge.data ++ " => " ++ inspect edge.dest.toNat) ++ "\n"

instance [Inspect σ] [Inspect τ] : Inspect (Digraph σ τ) :=
  ⟨fun graph => "Graph(\n" ++ String.join (graph.nodes.toList.mapIdx nodeLine) ++ ")\n"⟩

instance : Inspect State :=
  ⟨fun state => record "FaNode" [("id", inspect state.id.toNat),
    ("accept_token", inspect state.token), ("visited", inspect state.visited),
    ("reference_count", inspect state.references)]⟩

instance : Inspect Transition :=
  ⟨fun transition => record "FaEdge" [("symbol", inspect transition.symbol)]⟩

instance : Inspect Config :=
  ⟨fun config => record "Config" [("arena_capacity", inspect config.arenaCapacity),
    ("nest_limit", inspect config.nestLimit), ("compact", inspect config.compact)]⟩

instance : Inspect Workspace :=
  ⟨fun workspace => record "Context" [("arena", inspect workspace.arena),
    ("graph", inspect workspace.automaton.graph), ("entry", inspect workspace.automaton.entry),
    ("visited", inspect workspace.automaton.visited),
    ("seen", keySet workspace.automaton.seen), ("config", inspect workspace.config)]⟩

end Inspect

end PatternAutomata
