import PatternAutomata.Automaton.Dot
import PatternAutomata.Proofs.Embodiment
import PatternAutomata.Proofs.Reachable

/-!
# Nodes in reach that count as dead

Two rules count the references of a node. Adding an edge counts one more at its destination; a sweep
counts anew, and only edges that leave nodes reached from the entry. After a sweep the nodes of a
fragment that nothing leads to count nothing, and an edge that leads to the fragment later makes only
the first of them count. So nodes can be reached and count as dead. A workspace in which an edge is
added only to a node whose edges lead to nodes that count something has no such nodes; if reduction
compacts, that is so of every edge.
-/

namespace PatternAutomata

namespace Picture

variable {picture : Picture} {wires : List Wire} {count : Nat}

/-- The entry counts a reference, and a node that counts some leads only to nodes that do too. -/
structure Upheld (picture : Picture) : Prop where
  entry : picture.references picture.entry ≠ 0
  closed : ∀ {id}, picture.references id ≠ 0 →
    ∀ edge ∈ picture.edges id, picture.references edge.dest ≠ 0

/-- Every edge leads to a node that counts a reference. -/
def Counted (picture : Picture) : Prop :=
  ∀ id, ∀ edge ∈ picture.edges id, picture.references edge.dest ≠ 0

lemma Counted.upheld (h : picture.Counted) (he : picture.references picture.entry ≠ 0) :
    picture.Upheld :=
  ⟨he, fun _ => h _⟩

/-- Whether the words that count references hold the wires too. -/
def HasRoomFor (picture : Picture) (wires : List Wire) : Prop := ∀ id,
  (picture.references id).toNat + (wires.countP fun wire => wire.edge.dest = id) < UInt32.size

lemma references_extend_toNat (hroom : picture.HasRoomFor wires) (id : NodeId) :
    ((picture.extend count wires).references id).toNat =
      (picture.references id).toNat + wires.countP fun wire => wire.edge.dest = id := by
  have hlt : (picture.references id).toNat + (wires.countP fun wire => wire.edge.dest = id) <
    4294967296 := hroom id
  change (picture.references id + (wires.countP fun wire => wire.edge.dest = id).toUInt32).toNat = _
  rw [UInt32.toNat_add]
  simp
  omega

lemma references_extend_ne_zero (hroom : picture.HasRoomFor wires) {id : NodeId} :
    (picture.extend count wires).references id ≠ 0 ↔
      picture.references id ≠ 0 ∨ ∃ wire ∈ wires, wire.edge.dest = id := by
  have hzero : (wires.countP fun wire => wire.edge.dest = id) = 0 ↔
      ¬ ∃ wire ∈ wires, wire.edge.dest = id := by
    rw [List.countP_eq_zero]
    simp
  rw [Ne, Ne, ← UInt32.toNat_inj, ← UInt32.toNat_inj, references_extend_toNat hroom,
    UInt32.toNat_zero, Nat.add_eq_zero_iff, hzero, not_and_or, not_not]

lemma mem_edges_extend {id : NodeId} {edge : Edge Transition} :
    edge ∈ (picture.extend count wires).edges id ↔
      edge ∈ picture.edges id ∨ ∃ wire ∈ wires, wire.source = id ∧ wire.edge = edge := by
  simp [extend, and_assoc]

lemma Counted.extend (h : picture.Counted) (hroom : picture.HasRoomFor wires) :
    (picture.extend count wires).Counted := by
  intro id edge he
  rw [references_extend_ne_zero hroom]
  rcases mem_edges_extend.mp he with he | ⟨wire, hw, -, rfl⟩
  · exact .inl (h id edge he)
  · exact .inr ⟨wire, hw, rfl⟩

/-- Wires may be added if each leads to a node that itself leads only to nodes that count
something. -/
lemma Upheld.extend (h : picture.Upheld) (hroom : picture.HasRoomFor wires)
    (hready : ∀ wire ∈ wires, ∀ edge ∈ picture.edges wire.edge.dest,
      picture.references edge.dest ≠ 0) : (picture.extend count wires).Upheld := by
  refine ⟨(references_extend_ne_zero hroom).mpr (.inl h.entry), ?_⟩
  intro id hid edge he
  rw [references_extend_ne_zero hroom] at hid ⊢
  rcases mem_edges_extend.mp he with he | ⟨wire, hw, -, rfl⟩
  · rcases hid with hid | ⟨wire, hw, rfl⟩
    · exact .inl (h.closed hid edge he)
    · exact .inl (hready wire hw edge he)
  · exact .inr ⟨wire, hw, rfl⟩

lemma Upheld.gain {regex : Regex} {token : UInt32}
    (h : (picture.extend regex.nodeCount (regex.wiring picture.size ++ wires)).Upheld) :
    (picture.gain regex token wires).Upheld :=
  ⟨h.entry, h.closed⟩

lemma Counted.gain {regex : Regex} {token : UInt32}
    (h : (picture.extend regex.nodeCount (regex.wiring picture.size ++ wires)).Counted) :
    (picture.gain regex token wires).Counted :=
  h

end Picture

namespace Regex

lemma length_wiring (base : Nat) (regex : Regex) :
    (regex.wiring base).length + 3 ≤ 2 * regex.nodeCount := by
  induction regex generalizing base with
  | literal byte => exact Nat.le_refl 4
  | concat first second hf hs =>
    have := hf base
    have := hs (base + first.nodeCount)
    simp only [wiring, nodeCount, List.length_append, List.length_singleton]
    omega
  | alternate left right hl hr =>
    have := hl base
    have := hr (base + left.nodeCount)
    simp only [wiring, nodeCount, List.length_append, List.length_cons, List.length_nil]
    omega
  | star inner hi =>
    have := hi base
    simp only [wiring, nodeCount, List.length_append, List.length_cons, List.length_nil]
    omega

lemma length_wiringAll (base : Nat) (regexes : List Regex) :
    (wiringAll base regexes).length ≤ 2 * nodeCountAll regexes := by
  induction regexes generalizing base with
  | nil => exact Nat.le_refl 0
  | cons regex rest ih =>
    have := length_wiring base regex
    have := ih (base + regex.nodeCount)
    simp only [wiringAll, nodeCountAll, List.length_append]
    omega

end Regex

namespace Automaton

variable {automaton after flat : Automaton} {wires : List Wire} {count : Nat} {id : NodeId}

/-- There is room for the wires that lead to new nodes, if there are not more than a word counts. -/
lemma hasRoomFor_fresh (hfresh : ∀ wire ∈ wires, automaton.size ≤ wire.edge.dest.toNat)
    (hlen : wires.length < UInt32.size) : automaton.picture.HasRoomFor wires := by
  intro id
  by_cases hid : automaton.size ≤ id.toNat
  · rw [references_of_size_le hid]
    have : (wires.countP fun wire => wire.edge.dest = id) ≤ wires.length := List.countP_le_length
    simp only [UInt32.toNat_zero, Nat.zero_add]
    omega
  · have hnone : (wires.countP fun wire => wire.edge.dest = id) = 0 := by
      rw [List.countP_eq_zero]
      intro wire hw heq
      exact hid (of_decide_eq_true heq ▸ hfresh wire hw)
    rw [hnone]
    exact UInt32.toNat_lt _

/-- New nodes do not lead anywhere before they are wired. -/
lemma upheld_fresh (h : automaton.picture.Upheld)
    (hfresh : ∀ wire ∈ wires, automaton.size ≤ wire.edge.dest.toNat)
    (hlen : wires.length < UInt32.size) : (automaton.picture.extend count wires).Upheld := by
  apply h.extend (hasRoomFor_fresh hfresh hlen)
  intro wire hw edge he
  change edge ∈ automaton.edgesOf wire.edge.dest at he
  rw [edgesOf_of_size_le (hfresh wire hw)] at he
  cases he

/-! ## After a reduction -/

section Swept

variable (h : Swept flat after) (hf : flat.WellFormed) (hc : flat.CountsFit)
include h hf hc

lemma Swept.upheld : after.picture.Upheld where
  entry := (mem_liveNodes.mp (h.entry_mem_liveNodes hf hc)).2
  closed := by
    intro id hid edge he
    have hlt : id.toNat < after.size := lt_size_of_edge he
    have hlive := h.dest_mem_liveNodes hf hc id (mem_liveNodes.mpr ⟨hlt, hid⟩) edge he
    exact (mem_liveNodes.mp hlive).2

end Swept

section Compacted

variable (h : Compacted automaton after)
include h

lemma Compacted.counted (hclosed : ∀ id ∈ automaton.liveNodes, ∀ edge ∈ automaton.edgesOf id,
      edge.dest ∈ automaton.liveNodes) : after.picture.Counted := by
  intro id edge he
  have hlt : id.toNat < automaton.liveNodes.length := h.size_eq ▸ lt_size_of_edge he
  obtain ⟨old, hold, rfl⟩ := exists_rank_eq hlt
  change edge ∈ after.edgesOf _ at he
  rw [h.edgesOf_eq old hold, List.mem_map] at he
  obtain ⟨oldEdge, he, rfl⟩ := he
  have hlive := hclosed old hold oldEdge he
  change after.picture.references (automaton.rank oldEdge.dest) ≠ 0
  rw [h.references_eq _ hlive]
  exact (mem_liveNodes.mp hlive).2

lemma Compacted.upheld (hentry : automaton.entry ∈ automaton.liveNodes)
    (hclosed : ∀ id ∈ automaton.liveNodes, ∀ edge ∈ automaton.edgesOf id,
      edge.dest ∈ automaton.liveNodes) : after.picture.Upheld := by
  apply (h.counted hclosed).upheld
  change after.picture.references after.entry ≠ 0
  rw [h.entry_eq, h.references_eq _ hentry]
  exact (mem_liveNodes.mp hentry).2

end Compacted

/-! ## What is reached counts -/

lemma Reached.references_ne_zero (h : automaton.Reached id) (hu : automaton.picture.Upheld) :
    automaton.picture.references id ≠ 0 := by
  induction h with
  | refl => exact hu.entry
  | tail _ hstep ih =>
    obtain ⟨edge, he, -, rfl⟩ := hstep
    exact hu.closed ih edge he

end Automaton

namespace Workspace

variable {workspace after : Workspace}

/-- Requests that leave no reached node dead: an edge is added only if its destination can count one
reference more and leads only to nodes that count something, and no reduction counts more references
than a word holds. Where reductions compact, it is not asked what the destination leads to. -/
def Tending (workspace : Workspace) : Request → Prop
  | .addTransition source _ dest =>
    (source.toNat < workspace.automaton.size ∧ dest.toNat < workspace.automaton.size) ∧
    workspace.automaton.picture.references dest + 1 ≠ 0 ∧
    (workspace.config.chosenCompact = true ∨ ∀ edge ∈ workspace.automaton.edgesOf dest,
      workspace.automaton.picture.references edge.dest ≠ 0)
  | .reduce => workspace.CountsFit
  | _ => True

/-- What a workspace can become that was created under some options and then tended. -/
abbrev Tended : Workspace → Prop := Used Tending

/-- Every reached node counts something, and if reductions compact, every node that is led to. -/
structure Orderly (workspace : Workspace) : Prop where
  sound : workspace.Sound
  upheld : workspace.automaton.picture.Upheld
  counted : workspace.config.chosenCompact = true → workspace.automaton.picture.Counted

lemma create_orderly (config : Config) :
    WithinLimits (create config) fun workspace => workspace.Orderly := by
  apply (create_withinLimits config).mono
  rintro workspace ⟨-, hs, hp⟩
  have hcounted : workspace.automaton.picture.Counted := by
    rw [hp]
    exact fun _ _ he => nomatch he
  refine ⟨hs, hcounted.upheld ?_, fun _ => hcounted⟩
  rw [hp]
  decide

lemma Orderly.extend (h : workspace.Orderly) (hs : after.Sound)
    (hconfig : after.config = workspace.config) {count : Nat} {wires : List Wire}
    (hx : workspace.automaton.Extends count wires after.automaton)
    (hfresh : ∀ wire ∈ wires, workspace.automaton.size ≤ wire.edge.dest.toNat)
    (hlen : wires.length ≤ 2 * count) : after.Orderly := by
  have hlimit : after.automaton.size ≤ 2147483647 := hs.wellFormed.size_le
  rw [hx.size_eq] at hlimit
  have hlt : wires.length < 4294967296 := by omega
  refine ⟨hs, ?_, ?_⟩
  · rw [hx.picture_eq]
    exact Automaton.upheld_fresh h.upheld hfresh hlt
  · rw [hx.picture_eq, hconfig]
    exact fun hc => (h.counted hc).extend (Automaton.hasRoomFor_fresh hfresh hlt)

lemma Orderly.gain (h : workspace.Orderly) (hs : after.Sound)
    (hconfig : after.config = workspace.config) {regex : Regex} {token : UInt32} {more : List Wire}
    (hshows : Automaton.Shows workspace.automaton
      (workspace.automaton.picture.gain regex token more) after.automaton)
    (hfresh : ∀ wire ∈ more, workspace.automaton.size ≤ wire.edge.dest.toNat)
    (hmore : more.length ≤ 1) : after.Orderly := by
  have hlimit : after.automaton.size ≤ 2147483647 := hs.wellFormed.size_le
  have hsize : after.automaton.size = workspace.automaton.size + regex.nodeCount :=
    congrArg Picture.size hshows.picture_eq
  let wires := regex.wiring workspace.automaton.size ++ more
  have hall : ∀ wire ∈ wires, workspace.automaton.size ≤ wire.edge.dest.toNat := by
    intro wire hw
    rcases List.mem_append.mp hw with hw | hw
    · exact (Automaton.neat_wiring _ _).fresh wire hw
    · exact hfresh wire hw
  have hlt : wires.length < 4294967296 := by
    have := regex.length_wiring workspace.automaton.size
    rw [List.length_append]
    omega
  refine ⟨hs, ?_, ?_⟩
  · rw [hshows.picture_eq]
    exact (Automaton.upheld_fresh h.upheld hall hlt).gain
  · rw [hshows.picture_eq, hconfig]
    exact fun hc => ((h.counted hc).extend (Automaton.hasRoomFor_fresh hall hlt)).gain

lemma Orderly.addNode (h : workspace.Orderly) {id : NodeId}
    (heq : workspace.addNode = .ok (id, after)) : after.Orderly := by
  obtain ⟨hs, -, hx⟩ := (addNode_withinLimits h.sound).of_eq_ok heq
  exact h.extend hs (edit_config heq) hx (by simp) (Nat.zero_le _)

lemma Orderly.addTransition (h : workspace.Orderly) {source dest : NodeId} {symbol : UInt8}
    (hsource : source.toNat < workspace.automaton.size)
    (hdest : dest.toNat < workspace.automaton.size)
    (hcount : workspace.automaton.picture.references dest + 1 ≠ 0)
    (hready : workspace.config.chosenCompact = true ∨ ∀ edge ∈ workspace.automaton.edgesOf dest,
      workspace.automaton.picture.references edge.dest ≠ 0)
    (heq : workspace.addTransition source symbol dest = .ok after) : after.Orderly := by
  obtain ⟨hs, hx⟩ := (addTransition_withinLimits h.sound hsource hdest symbol).of_eq_ok heq
  have hconfig := edit_config (edit_of_addTransition heq)
  have hroom : workspace.automaton.picture.HasRoomFor [⟨source, ⟨dest, ⟨symbol⟩⟩⟩] := by
    intro id
    by_cases hid : dest = id
    · subst hid
      have hne : (workspace.automaton.picture.references dest + 1).toNat ≠ 0 := by
        rwa [Ne, ← UInt32.toNat_zero, UInt32.toNat_inj]
      have hlt := (workspace.automaton.picture.references dest).toNat_lt
      rw [UInt32.toNat_add] at hne
      change _ < 4294967296
      simp at hne ⊢
      omega
    · simpa [hid] using (workspace.automaton.picture.references id).toNat_lt
  refine ⟨hs, ?_, ?_⟩
  · rw [hx.picture_eq]
    apply h.upheld.extend hroom
    intro wire hw
    rw [List.mem_singleton.mp hw]
    rcases hready with hc | hready
    · exact h.counted hc dest
    · exact hready
  · rw [hx.picture_eq, hconfig]
    exact fun hc => (h.counted hc).extend hroom

lemma Orderly.addFragmentOf (h : workspace.Orderly) {token : UInt32} {pattern : String}
    {compiled : Compiled} (heq : workspace.addFragmentOf token pattern = .ok (compiled, after)) :
    after.Orderly := by
  obtain ⟨hconfig, hs, hread⟩ := (addFragmentOf_withinLimits h.sound token pattern).of_eq_ok heq
  cases hr : readPattern workspace.config.chosenNestLimit token pattern with
  | error rejection =>
    rw [hr] at hread
    exact h.extend hs hconfig hread.2 (Automaton.neat_wiringAll _ _).fresh
      (Regex.length_wiringAll _ _)
  | ok regex =>
    rw [hr] at hread
    exact h.gain hs hconfig hread.2 (by simp) (Nat.zero_le 1)

lemma Orderly.addPattern (h : workspace.Orderly) {token : UInt32} {pattern : String}
    {compiled : Compiled} (heq : workspace.addPattern token pattern = .ok (compiled, after)) :
    after.Orderly := by
  obtain ⟨hconfig, hs, hread⟩ := (addPattern_withinLimits h.sound token pattern).of_eq_ok heq
  cases hr : readPattern workspace.config.chosenNestLimit token pattern with
  | error rejection =>
    rw [hr] at hread
    exact h.extend hs hconfig hread.2 (Automaton.neat_wiringAll _ _).fresh
      (Regex.length_wiringAll _ _)
  | ok regex =>
    rw [hr] at hread
    refine h.gain hs hconfig hread.2 ?_ (Nat.le_refl 1)
    intro wire hw
    rw [List.mem_singleton.mp hw]
    exact (regex.covers_entryAt _).1

lemma Orderly.reduce (h : workspace.Orderly) (hfit : workspace.CountsFit) {reports : List Message}
    (heq : workspace.reduce = .ok (reports, after)) : after.Orderly := by
  obtain ⟨hconfig, flat, hflattened, -, hcount, hkept, hcompacted⟩ :=
    (reduce_withinLimits h.sound).of_eq_ok heq
  have hw := hflattened.wellFormed
  have hfits := hcount hfit
  cases hc : workspace.config.chosenCompact with
  | false =>
    have hswept := hkept hc
    refine ⟨⟨hswept.wellFormed, hswept.quiet⟩, hswept.upheld hw hfits, ?_⟩
    rw [hconfig, hc]
    nofun
  | true =>
    obtain ⟨swept, hswept, hcomp⟩ := hcompacted hc hfits
    have hclosed := hswept.dest_mem_liveNodes hw hfits
    exact ⟨⟨hcomp.wellFormed, hcomp.quiet⟩,
      hcomp.upheld (hswept.entry_mem_liveNodes hw hfits) hclosed, fun _ => hcomp.counted hclosed⟩

lemma Orderly.use (h : workspace.Orderly) (huse : Use Tending workspace after) : after.Orderly := by
  cases huse with
  | addNode _ heq => exact h.addNode heq
  | addTransition hready heq =>
    exact h.addTransition hready.1.1 hready.1.2 hready.2.1 hready.2.2 heq
  | addFragmentOf _ heq => exact h.addFragmentOf heq
  | addPattern _ heq => exact h.addPattern heq
  | reduce hfit heq => exact h.reduce hfit heq

lemma Tended.orderly (h : workspace.Tended) : workspace.Orderly := by
  induction h with
  | create heq => exact (create_orderly _).of_eq_ok heq
  | use _ huse ih => exact ih.use huse

/-- In a tended workspace no node that is reached is dead, so it is live and is not drawn as a
rectangle. -/
theorem Tended.reached_isLive (h : workspace.Tended) {id : NodeId}
    (hr : workspace.automaton.Reached id) : id ∈ workspace.automaton.liveNodes ∧
      ∃ node, workspace.automaton.node? id = some node ∧ node.data.isDead = false ∧
        Dot.Shape.ofState node.data ≠ .rectangle := by
  have hlt := hr.lt_size h.orderly.sound.wellFormed
  have hne := hr.references_ne_zero h.orderly.upheld
  refine ⟨Automaton.mem_liveNodes.mpr ⟨hlt, hne⟩, ?_⟩
  obtain ⟨node, hn⟩ := Automaton.exists_node hlt
  have hdead : node.data.isDead = false := by
    simpa [Automaton.picture, hn, State.isDead] using hne
  refine ⟨node, hn, hdead, ?_⟩
  simp only [Dot.Shape.ofState, hdead, Bool.false_eq_true, if_false]
  split <;> simp

/-! ## A fragment linked before and after a reduction -/

/-- The entry, and a fragment that nothing leads to. -/
def unlinked : Except Fault Workspace := do
  let workspace ← create {}
  let (_, workspace) ← workspace.addFragmentOf 1 "a"
  return workspace

/-- An edge to the fragment is added at once. -/
def linked : Except Fault Workspace := do
  let workspace ← unlinked
  workspace.addTransition ⟨0⟩ Transition.epsilon ⟨1⟩

def detached : Except Fault Workspace := do
  let workspace ← unlinked
  let (_, workspace) ← workspace.reduce
  return workspace

/-- An edge to the fragment is added after a reduction. -/
def revived : Except Fault Workspace := do
  let workspace ← detached
  workspace.addTransition ⟨0⟩ Transition.epsilon ⟨1⟩

lemma reached_of_any {automaton : Automaton} {source dest : NodeId}
    (hs : automaton.Reached source)
    (h : ((automaton.edgesOf source).any fun edge => edge.dest = dest) = true) :
    automaton.Reached dest := by
  obtain ⟨edge, he, hd⟩ := List.any_eq_true.mp h
  exact of_decide_eq_true hd ▸ hs.edge he

lemma exists_of_unlinked {workspace : Workspace} (h : unlinked = .ok workspace) :
    workspace.Tended ∧ workspace.Reachable ∧ workspace.config = {} := by
  unfold unlinked at h
  obtain ⟨start, hstart, h⟩ := exists_of_bind_eq_ok h
  obtain ⟨⟨compiled, fragment⟩, hfragment, h⟩ := exists_of_bind_eq_ok h
  cases h
  have hconfig := ((create_withinLimits _).of_eq_ok hstart).1
  exact ⟨.use (.create hstart) (.addFragmentOf trivial hfragment),
    .use (.create hstart) (.addFragmentOf trivial hfragment),
    (edit_config hfragment).trans hconfig⟩

theorem Tended.reached_isLive_linked : ∃ before reports workspace, linked = .ok before ∧
    before.reduce = .ok (reports, workspace) ∧ workspace.Tended ∧
    workspace.automaton.Reached ⟨2⟩ ∧ ⟨2⟩ ∈ workspace.automaton.liveNodes ∧
      ∃ node, workspace.automaton.node? ⟨2⟩ = some node ∧ node.data.isDead = false ∧
        Dot.Shape.ofState node.data ≠ .rectangle := by
  have hready : (unlinked.toOption.any fun workspace => decide (workspace.automaton.size = 3) &&
      decide (workspace.automaton.picture.references ⟨1⟩ + 1 ≠ 0) &&
      (workspace.automaton.edgesOf ⟨1⟩).all fun edge =>
        decide (workspace.automaton.picture.references edge.dest ≠ 0)) = true := by decide +kernel
  have hfew : (linked.toOption.any fun workspace =>
      (workspace.keepingDead.reduce.toOption.all fun outcome =>
        decide (outcome.2.automaton.graph.edgeCount + 1 < UInt32.size)) &&
      workspace.reduce.toOption.any fun (_, after) => decide (after.automaton.entry = ⟨0⟩) &&
        (after.automaton.edgesOf ⟨0⟩).any fun edge => edge.dest = ⟨2⟩) = true := by decide +kernel
  obtain ⟨first, hfirst, hready⟩ := exists_of_any hready
  obtain ⟨before, hbefore, hfew⟩ := exists_of_any hfew
  simp only [Bool.and_eq_true, decide_eq_true_eq, List.all_eq_true] at hready hfew
  obtain ⟨⟨hsize, hcount⟩, hready⟩ := hready
  obtain ⟨hfew, hreduce⟩ := hfew
  obtain ⟨⟨reports, workspace⟩, hreduce, hstep⟩ := exists_of_any hreduce
  simp only [Bool.and_eq_true, decide_eq_true_eq] at hstep
  have hfit := countsFit_of_all hfew
  have hlinked : before.Tended := by
    have hlink := hbefore
    unfold linked at hlink
    rw [hfirst] at hlink
    have hids : (⟨0⟩ : NodeId).toNat < first.automaton.size ∧
        (⟨1⟩ : NodeId).toNat < first.automaton.size := by simp [hsize]
    exact (exists_of_unlinked hfirst).1.use (.addTransition ⟨hids, hcount, .inr hready⟩ hlink)
  have hlast : workspace.Tended := hlinked.use (.reduce hfit hreduce)
  have hreached := reached_of_any (hstep.1 ▸ Automaton.Reached.entry) hstep.2
  exact ⟨before, reports, workspace, hbefore, hreduce, hlast, hreached,
    hlast.reached_isLive hreached⟩

/-- A fragment that is reduced before an edge leads to it has a node that is reached from then on and
counts as dead: it is not listed as live, and it is drawn as a rectangle. -/
theorem revived_reached_dead : ∃ workspace, revived = .ok workspace ∧ workspace.Reachable ∧
    workspace.automaton.Reached ⟨2⟩ ∧ ⟨2⟩ ∉ workspace.automaton.liveNodes ∧
    Dot.Line.node ⟨2⟩ .rectangle (some 1) ∈ Dot.lines workspace.automaton := by
  have hsize : (detached.toOption.any fun workspace =>
      decide (workspace.automaton.size = 3)) = true := by decide +kernel
  have hdead : (revived.toOption.any fun workspace =>
      (decide (workspace.automaton.entry = ⟨0⟩) &&
      (workspace.automaton.edgesOf ⟨0⟩).any fun edge => edge.dest = ⟨1⟩) &&
      ((workspace.automaton.edgesOf ⟨1⟩).any fun edge => edge.dest = ⟨2⟩) &&
      decide (⟨2⟩ ∉ workspace.automaton.liveNodes) &&
      decide (Dot.Line.node ⟨2⟩ .rectangle (some 1) ∈ Dot.lines workspace.automaton)) = true := by
    decide +kernel
  obtain ⟨before, hbefore, hsize⟩ := exists_of_any hsize
  obtain ⟨workspace, hrevived, hdead⟩ := exists_of_any hdead
  simp only [Bool.and_eq_true, decide_eq_true_eq] at hsize hdead
  obtain ⟨⟨⟨⟨hentry, hfirst⟩, hsecond⟩, hlive⟩, hdrawn⟩ := hdead
  have hreachable : before.Reachable := by
    have hdetach := hbefore
    unfold detached at hdetach
    obtain ⟨first, hunlinked, hdetach⟩ := exists_of_bind_eq_ok hdetach
    obtain ⟨⟨reports, after⟩, hreduce, hdetach⟩ := exists_of_bind_eq_ok hdetach
    cases hdetach
    obtain ⟨-, hr, hconfig⟩ := exists_of_unlinked hunlinked
    have hkeep : first.config.chosenCompact = false := by
      rw [hconfig]
      rfl
    exact hr.use (.reduce (fun hc => absurd hc (by simp [hkeep])) hreduce)
  have hlink := hrevived
  unfold revived at hlink
  rw [hbefore] at hlink
  have hafter : workspace.Reachable := by
    have hids : 0 < before.automaton.size ∧ 1 < before.automaton.size := by omega
    exact hreachable.use (.addTransition hids hlink)
  have hone := reached_of_any (hentry ▸ Automaton.Reached.entry) hfirst
  exact ⟨workspace, hrevived, hafter, reached_of_any hone hsecond, hlive, hdrawn⟩

end Workspace

end PatternAutomata
