import PatternAutomata.Automaton.Thompson
import PatternAutomata.Proofs.Marking

/-!
# The wiring of a fragment

The fragment of an expression is determined by the expression and the number of nodes there were
before: the wiring lists its edges in the order in which they are added. Building the fragment adds
these edges and their nodes to an automaton and changes nothing else.
-/

namespace PatternAutomata

/-- An edge with its source. -/
structure Wire where
  source : NodeId
  edge : Edge Transition

def Wire.silent (source dest : NodeId) : Wire := ⟨source, ⟨dest, ⟨Transition.epsilon⟩⟩⟩

def Wire.reading (source : NodeId) (byte : UInt8) (dest : NodeId) : Wire := ⟨source, ⟨dest, ⟨byte⟩⟩⟩

/-- The picture once nodes have been added at the end of the table, and edges. -/
def Picture.extend (picture : Picture) (count : Nat) (wires : List Wire) : Picture :=
  { picture with
    size := picture.size + count
    edges := fun id =>
      picture.edges id ++ (wires.filter fun wire => wire.source = id).map Wire.edge
    references := fun id =>
      picture.references id + (wires.countP fun wire => wire.edge.dest = id).toUInt32
    label := fun id =>
      if picture.size ≤ id.toNat ∧ id.toNat < picture.size + count then id else picture.label id }

@[simp] lemma Picture.extend_nil (picture : Picture) : picture.extend 0 [] = picture := by
  have : ∀ id : NodeId, ¬ (picture.size ≤ id.toNat ∧ id.toNat < picture.size) := by
    intro id
    omega
  simp [Picture.extend, this]

lemma Picture.extend_extend (picture : Picture) (count count' : Nat) (wires wires' : List Wire) :
    (picture.extend count wires).extend count' wires' =
      picture.extend (count + count') (wires ++ wires') := by
  ext1 <;> try rfl
  · exact Nat.add_assoc _ _ _
  · funext id
    simp [Picture.extend]
  · funext id
    simp [Picture.extend, UInt32.add_assoc]
  · funext id
    change (if picture.size + count ≤ id.toNat ∧ id.toNat < picture.size + count + count' then id
      else if picture.size ≤ id.toNat ∧ id.toNat < picture.size + count then id
      else picture.label id) =
      if picture.size ≤ id.toNat ∧ id.toNat < picture.size + (count + count') then id
      else picture.label id
    split
    · rw [if_pos (by omega)]
    · split
      · rw [if_pos (by omega)]
      · rw [if_neg (by omega)]

namespace Automaton

variable {automaton : Automaton}

/-- Nodes and edges have been added, and nothing else has changed. -/
def Extends (automaton : Automaton) (count : Nat) (wires : List Wire) (after : Automaton) : Prop :=
  Shows automaton (automaton.picture.extend count wires) after

lemma Extends.refl (ha : automaton.WellFormed) : automaton.Extends 0 [] automaton := by
  unfold Extends
  rw [Picture.extend_nil]
  exact Shows.refl ha

lemma Extends.trans {count count' : Nat} {wires wires' : List Wire} {after last : Automaton}
    (h : automaton.Extends count wires after) (h' : after.Extends count' wires' last) :
    automaton.Extends (count + count') (wires ++ wires') last :=
  ⟨h'.wellFormed, by rw [h'.picture_eq, h.picture_eq, Picture.extend_extend],
    h'.seen_eq.trans h.seen_eq⟩

lemma Extends.size_eq {count : Nat} {wires : List Wire} {after : Automaton}
    (h : automaton.Extends count wires after) : after.size = automaton.size + count :=
  congrArg Picture.size h.picture_eq

lemma Extends.bind {α β : Type} {editing : Editing α} {next : α → Editing β} {m n : Nat}
    {v w : List Wire} {value : α} {p : β → Prop}
    (h : Editing.Ensures editing automaton fun found after =>
      found = value ∧ automaton.Extends m v after)
    (hn : ∀ after : Automaton, after.WellFormed → after.size = automaton.size + m →
      Editing.Ensures (next value) after fun found last => p found ∧ after.Extends n w last) :
    Editing.Ensures (editing >>= next) automaton fun found after =>
      p found ∧ automaton.Extends (m + n) (v ++ w) after := by
  apply Editing.Ensures.bind h
  rintro _ after ⟨rfl, ha⟩
  exact (hn after ha.wellFormed ha.size_eq).mono fun found last ⟨hp, hl⟩ => ⟨hp, ha.trans hl⟩

lemma addNode_extends (ha : automaton.Settled) :
    Editing.Ensures addNode automaton fun id after =>
      id = ⟨automaton.size⟩ ∧ automaton.Extends 1 [] after := by
  refine (addNode_ensures ha).mono fun id after ⟨hid, hs⟩ => ⟨hid, hs.wellFormed, ?_, hs.seen_eq⟩
  rw [hs.picture_eq]
  ext1 <;> try rfl
  · funext id
    simp [Picture.extend, picture]
  · funext id
    simp [Picture.extend]
  · funext id
    have hmem : (automaton.size ≤ id.toNat ∧ id.toNat < automaton.size + 1) ↔
        id = ⟨automaton.size⟩ := by
      cases id
      simp
      omega
    change Function.update automaton.picture.label ⟨automaton.size⟩ ⟨automaton.size⟩ id =
      if automaton.size ≤ id.toNat ∧ id.toNat < automaton.size + 1 then id else _
    rw [Function.update_apply]
    by_cases h : id = ⟨automaton.size⟩
    · rw [if_pos h, if_pos (hmem.mpr h), h]
    · rw [if_neg h, if_neg (mt hmem.mp h)]

lemma addTransition_extends (ha : automaton.WellFormed) {source dest : NodeId}
    (hs : source.toNat < automaton.size) (hd : dest.toNat < automaton.size) (symbol : UInt8) :
    Editing.Ensures (addTransition source symbol dest) automaton fun found after =>
      found = () ∧ automaton.Extends 0 [⟨source, ⟨dest, ⟨symbol⟩⟩⟩] after := by
  refine (addTransition_ensures ha hs hd symbol).mono fun _ after h =>
    ⟨rfl, h.wellFormed, ?_, h.seen_eq⟩
  have hnone : ∀ id : NodeId, ¬ (automaton.picture.size ≤ id.toNat ∧
      id.toNat < automaton.picture.size + 0) := by
    intro id
    omega
  rw [h.picture_eq]
  ext1 <;> try rfl
  · funext id
    by_cases hid : id = source
    · subst hid
      simp [Picture.extend, picture]
    · simp [Picture.extend, picture, hid, Ne.symm hid]
  · funext id
    by_cases hid : id = dest
    · subst hid
      simp [Picture.extend]
    · simp [Picture.extend, hid, Ne.symm hid]
  · funext id
    simp only [Picture.extend]
    rw [if_neg (hnone id)]

end Automaton

/-! ## Wirings -/

namespace Regex

def nodeCount : Regex → Nat
  | .literal _ => 2
  | .concat first second => first.nodeCount + second.nodeCount
  | .alternate left right => left.nodeCount + right.nodeCount + 2
  | .star inner => inner.nodeCount + 2

/-- Where the fragment of an expression begins, if its first node has a given position. -/
def entryAt (base : Nat) : Regex → NodeId
  | .literal _ => ⟨base⟩
  | .concat first _ => first.entryAt base
  | .alternate left right => ⟨base + left.nodeCount + right.nodeCount⟩
  | .star inner => ⟨base + inner.nodeCount⟩

/-- Where the fragment of an expression ends, if its first node has a given position. -/
def exitAt (base : Nat) : Regex → NodeId
  | .literal _ => ⟨base + 1⟩
  | .concat first second => second.exitAt (base + first.nodeCount)
  | .alternate left right => ⟨base + left.nodeCount + right.nodeCount + 1⟩
  | .star inner => ⟨base + inner.nodeCount + 1⟩

/-- The edges of the fragment of an expression, if its first node has a given position. -/
def wiring (base : Nat) : Regex → List Wire
  | .literal byte => [.reading ⟨base⟩ byte ⟨base + 1⟩]
  | .concat first second =>
    let middle := base + first.nodeCount
    first.wiring base ++ (second.wiring middle ++
      [.silent (first.exitAt base) (second.entryAt middle)])
  | .alternate left right =>
    let middle := base + left.nodeCount
    let entry : NodeId := ⟨middle + right.nodeCount⟩
    let exit : NodeId := ⟨middle + right.nodeCount + 1⟩
    left.wiring base ++ (right.wiring middle ++
      [.silent entry (left.entryAt base), .silent entry (right.entryAt middle),
        .silent (left.exitAt base) exit, .silent (right.exitAt middle) exit])
  | .star inner =>
    let entry : NodeId := ⟨base + inner.nodeCount⟩
    let exit : NodeId := ⟨base + inner.nodeCount + 1⟩
    inner.wiring base ++
      [.silent (inner.exitAt base) (inner.entryAt base), .silent entry exit,
        .silent entry (inner.entryAt base), .silent (inner.exitAt base) exit]

/-- Whether a handle belongs to the fragment of an expression. -/
def Covers (base : Nat) (regex : Regex) (id : NodeId) : Prop :=
  base ≤ id.toNat ∧ id.toNat < base + regex.nodeCount

lemma covers_entryAt (base : Nat) (regex : Regex) : regex.Covers base (regex.entryAt base) := by
  induction regex generalizing base with
  | literal byte => exact ⟨Nat.le_refl _, by simp [nodeCount, entryAt]⟩
  | concat first second hf hs =>
    obtain ⟨h, h'⟩ := hf base
    exact ⟨h, by simp only [nodeCount, entryAt]; omega⟩
  | alternate left right =>
    exact ⟨by simp only [entryAt]; omega, by simp only [nodeCount, entryAt]; omega⟩
  | star inner => exact ⟨by simp only [entryAt]; omega, by simp only [nodeCount, entryAt]; omega⟩

lemma covers_exitAt (base : Nat) (regex : Regex) : regex.Covers base (regex.exitAt base) := by
  induction regex generalizing base with
  | literal byte => exact ⟨by simp [exitAt], by simp [nodeCount, exitAt]⟩
  | concat first second hf hs =>
    obtain ⟨h, h'⟩ := hs (base + first.nodeCount)
    exact ⟨by simp only [exitAt]; omega, by simp only [nodeCount, exitAt]; omega⟩
  | alternate left right =>
    exact ⟨by simp only [exitAt]; omega, by simp only [nodeCount, exitAt]; omega⟩
  | star inner => exact ⟨by simp only [exitAt]; omega, by simp only [nodeCount, exitAt]; omega⟩

end Regex

namespace Automaton

variable {automaton : Automaton}

lemma addFragment_extends (ha : automaton.Settled) :
    Editing.Ensures addFragment automaton fun fragment after =>
      fragment = ⟨⟨automaton.size⟩, ⟨automaton.size + 1⟩⟩ ∧ automaton.Extends 2 [] after := by
  unfold addFragment
  apply Extends.bind (n := 1) (addNode_extends ha)
  intro first hf hsize
  apply Extends.bind (n := 0) (addNode_extends hf.settled)
  intro second hs hsize'
  rw [Editing.ensures_pure, hsize]
  exact ⟨rfl, Extends.refl hs⟩

lemma addEpsilon_extends (ha : automaton.WellFormed) {source dest : NodeId}
    (hs : source.toNat < automaton.size) (hd : dest.toNat < automaton.size) :
    Editing.Ensures (addEpsilon source dest) automaton fun found after =>
      found = () ∧ automaton.Extends 0 [.silent source dest] after :=
  addTransition_extends ha hs hd _

lemma addEpsilon_bind {β : Type} (ha : automaton.WellFormed) {source dest : NodeId}
    (hs : source.toNat < automaton.size) (hd : dest.toNat < automaton.size) {next : Unit → Editing β}
    {w : List Wire} {p : β → Prop}
    (hn : ∀ after : Automaton, after.WellFormed → after.size = automaton.size →
      Editing.Ensures (next ()) after fun found last => p found ∧ after.Extends 0 w last) :
    Editing.Ensures (addEpsilon source dest >>= next) automaton fun found after =>
      p found ∧ automaton.Extends 0 (.silent source dest :: w) after :=
  Extends.bind (addEpsilon_extends ha hs hd) hn

/-- Building the fragment of an expression adds the wiring and its nodes. -/
theorem assemble_extends (regex : Regex) {automaton : Automaton} (ha : automaton.Settled) :
    Editing.Ensures (assemble regex) automaton fun fragment after =>
      fragment = ⟨regex.entryAt automaton.size, regex.exitAt automaton.size⟩ ∧
      automaton.Extends regex.nodeCount (regex.wiring automaton.size) after := by
  induction regex generalizing automaton with
  | literal byte =>
    unfold assemble
    apply Extends.bind (n := 0) (addFragment_extends ha)
    intro pair hp hsize
    refine Extends.bind (n := 0) (w := []) (addTransition_extends hp ?_ ?_ byte) fun last hl _ => ?_
    · simp [hsize]
    · simp [hsize]
    · rw [Editing.ensures_pure]
      exact ⟨rfl, Extends.refl hl⟩
  | concat first second hf hs =>
    unfold assemble
    apply Extends.bind (n := second.nodeCount) (hf ha)
    intro middle hm hsize
    rw [← hsize]
    apply Extends.bind (n := 0) (hs hm.settled)
    intro last hl hsize'
    have hexit := (first.covers_exitAt automaton.size).2
    have hentry := (second.covers_entryAt middle.size).2
    apply addEpsilon_bind hl (by dsimp only; omega) (by dsimp only; omega)
    intro joined hj _
    rw [Editing.ensures_pure]
    refine ⟨?_, Extends.refl hj⟩
    simp only [Regex.entryAt, Regex.exitAt, hsize]
  | alternate left right hl hr =>
    unfold assemble
    apply Extends.bind (n := right.nodeCount + 2) (hl ha)
    intro middle hm hsize
    rw [← hsize]
    apply Extends.bind (n := 2) (hr hm.settled)
    intro both hb hsize'
    apply Extends.bind (v := []) (n := 0) (addFragment_extends hb.settled)
    intro pair hp hsize''
    have hentry := (left.covers_entryAt automaton.size).2
    have hexit := (left.covers_exitAt automaton.size).2
    have hentry' := (right.covers_entryAt middle.size).2
    have hexit' := (right.covers_exitAt middle.size).2
    rw [hsize']
    dsimp only
    apply addEpsilon_bind hp (by dsimp only; omega) (by omega)
    intro first hf h1
    apply addEpsilon_bind hf (by dsimp only; omega) (by omega)
    intro second hs h2
    apply addEpsilon_bind hs (by omega) (by dsimp only; omega)
    intro third ht h3
    apply addEpsilon_bind ht (by omega) (by dsimp only; omega)
    intro fourth hj h4
    rw [Editing.ensures_pure]
    exact ⟨by simp only [Regex.entryAt, Regex.exitAt, hsize], Extends.refl hj⟩
  | star inner hi =>
    unfold assemble
    apply Extends.bind (n := 2) (hi ha)
    intro middle hm hsize
    apply Extends.bind (v := []) (n := 0) (addFragment_extends hm.settled)
    intro pair hp hsize'
    have hentry := (inner.covers_entryAt automaton.size).2
    have hexit := (inner.covers_exitAt automaton.size).2
    rw [hsize]
    dsimp only
    apply addEpsilon_bind hp (by omega) (by omega)
    intro first hf h1
    apply addEpsilon_bind hf (by dsimp only; omega) (by dsimp only; omega)
    intro second hs h2
    apply addEpsilon_bind hs (by dsimp only; omega) (by omega)
    intro third ht h3
    apply addEpsilon_bind ht (by omega) (by dsimp only; omega)
    intro fourth hj h4
    rw [Editing.ensures_pure]
    exact ⟨rfl, Extends.refl hj⟩

end Automaton

end PatternAutomata
