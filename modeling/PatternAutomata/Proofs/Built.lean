import PatternAutomata.Proofs.PostOrder
import PatternAutomata.Proofs.Restriction

/-!
# Digraphs that operations build

A digraph is built from the empty one by adding nodes, linking them, restricting it to some of its nodes
and changing single nodes, edge lists included, as long as no edge leads out of the table. So every edge
of a digraph that was built leads to one of its nodes, and its table fits the handles.
-/

namespace PatternAutomata

namespace Digraph

variable {σ τ : Type} {graph after : Digraph σ τ}

/-- The digraphs that come from the empty one. -/
inductive Built [Footprint σ] [Footprint τ] : Digraph σ τ → Prop
  | empty : Built .empty
  | addNode {graph after : Digraph σ τ} {data : σ} {id : NodeId} {arena left : Arena} :
      Built graph → (graph.addNode data).run arena = .ok ((id, after), left) → Built after
  | link {graph after : Digraph σ τ} {source dest : NodeId} {data : τ} {arena left : Arena} :
      Built graph → (graph.link source dest data).run arena = .ok (after, left) → Built after
  | restrict {graph after : Digraph σ τ} {keep : NodeId → Node σ τ → Bool}
      {table : Buffer (Option NodeId)} {arena left : Arena} :
      Built graph → (graph.restrict keep).run arena = .ok ((table, after), left) → Built after
  | edit {graph after : Digraph σ τ} {id : NodeId} {f : Node σ τ → Node σ τ} :
      Built graph →
      (∀ node, graph.node id = .ok node →
        ∀ edge ∈ (f node).edges.toList, edge.dest.toNat < graph.size) →
      graph.modify id f = .ok after → Built after

lemma exists_of_addNode [Footprint σ] {data : σ} {id : NodeId} {arena left : Arena}
    (h : (graph.addNode data).run arena = .ok ((id, after), left)) :
    graph.size < NodeId.limit ∧
      ∃ capacity, after = { nodes := graph.nodes.append capacity { data } } := by
  unfold Digraph.addNode Buffer.push at h
  obtain ⟨⟨added, _⟩, hrequire, h⟩ := Charged.exists_of_bind_eq_ok h
  have hlimit := (require_withinLimits graph.size).of_eq_ok (Charged.eq_ok_of_liftM hrequire)
  rw [bind_assoc] at h
  obtain ⟨⟨capacity, _⟩, -, h⟩ := Charged.exists_of_bind_eq_ok h
  cases h
  exact ⟨hlimit.2, capacity, rfl⟩

lemma exists_of_link [Footprint τ] {source dest : NodeId} {data : τ} {arena left : Arena}
    (h : (graph.link source dest data).run arena = .ok (after, left)) :
    dest.toNat < graph.size ∧ ∃ capacity, graph.modify source (fun node =>
      { node with edges := node.edges.append capacity ⟨dest, data⟩ }) = .ok after := by
  unfold Digraph.link at h
  by_cases hle : graph.size ≤ dest.toNat
  · rw [if_pos hle] at h
    cases h
  · rw [if_neg hle] at h
    obtain ⟨_, -, h⟩ := Charged.exists_of_bind_eq_ok h
    obtain ⟨⟨capacity, _⟩, -, h⟩ := Charged.exists_of_bind_eq_ok h
    exact ⟨Nat.not_le.mp hle, capacity, Charged.eq_ok_of_liftM h⟩

/-! ## Closure -/

/-- Changing a node adds no node, and no edges but those of the changed node. -/
lemma Closed.modify (hg : graph.Closed) {id : NodeId} {f : Node σ τ → Node σ τ}
    (hf : ∀ node, graph.node id = .ok node →
      ∀ edge ∈ (f node).edges.toList, edge.dest.toNat < graph.size)
    (h : graph.modify id f = .ok after) : after.Closed := by
  unfold Digraph.modify at h
  split at h
  · cases h
    rw [closed_iff] at hg ⊢
    have hsize : Digraph.size { nodes := graph.nodes.modify id.toNat f } = graph.size := by
      simp [size, Buffer.size, Buffer.modify]
    rw [hsize]
    refine ⟨fun other node hn => ?_, hg.2⟩
    rw [node_eq_ok_iff] at hn
    simp only [Buffer.modify, Array.getElem?_modify] at hn
    split at hn
    · rename_i heq
      obtain ⟨old, hold, rfl⟩ := Option.map_eq_some_iff.mp hn
      exact hf old (node_eq_ok_iff.mpr (heq ▸ hold))
    · exact hg.1 other node (node_eq_ok_iff.mpr hn)
  · cases h

/-- Every edge of a digraph that was built leads to one of its nodes. -/
theorem Built.closed [Footprint σ] [Footprint τ] (h : graph.Built) : graph.Closed := by
  induction h with
  | empty => exact ⟨by simp [Digraph.empty], Nat.zero_le _⟩
  | @addNode graph after data id arena left _ hrun hg =>
    obtain ⟨hlimit, capacity, rfl⟩ := exists_of_addNode hrun
    have hsize : Digraph.size { nodes := graph.nodes.append capacity { data } } = graph.size + 1 := by
      simp [size, Buffer.size, Buffer.append]
    refine ⟨fun node hmem edge hedge => ?_, hsize ▸ hlimit⟩
    rcases Array.mem_push.mp hmem with hold | rfl
    · have hlt := hg.dest_lt node hold edge hedge
      omega
    · exact absurd hedge (Array.not_mem_empty edge)
  | @link graph after source dest data arena left _ hrun hg =>
    obtain ⟨hdest, capacity, hmodify⟩ := exists_of_link hrun
    refine hg.modify (fun node hn edge hedge => ?_) hmodify
    rcases Array.mem_push.mp (Array.mem_toList_iff.mp hedge) with hold | rfl
    · exact hg.dest_lt node (Array.mem_of_getElem? (node_eq_ok_iff.mp hn)) edge hold
    · exact hdest
  | @restrict graph after keep table arena left _ hrun hg =>
    exact ((restrict_induces hg keep arena).of_eq_ok hrun).closed hg.size_le
  | edit _ hf hmodify hg => exact hg.modify hf hmodify

/-- Adds nodes, one for each of some data. -/
def addNodes [Footprint σ] (graph : Digraph σ τ) : List σ → Charged (Digraph σ τ)
  | [] => return graph
  | data :: rest => do
    let (_, graph) ← graph.addNode data
    graph.addNodes rest

/-- Adds edges, each given by its source, its destination and what it carries. -/
def links [Footprint τ] (graph : Digraph σ τ) : List (NodeId × NodeId × τ) → Charged (Digraph σ τ)
  | [] => return graph
  | (source, dest, data) :: rest => do
    let graph ← graph.link source dest data
    graph.links rest

lemma Built.addNodes [Footprint σ] [Footprint τ] (h : graph.Built) {data : List σ} {arena left : Arena}
    (hrun : (graph.addNodes data).run arena = .ok (after, left)) : after.Built := by
  induction data generalizing graph arena with
  | nil =>
    cases hrun
    exact h
  | cons first rest ih =>
    obtain ⟨middle, hfirst, hrest⟩ := Charged.exists_of_bind_eq_ok hrun
    exact ih (h.addNode hfirst) hrest

lemma Built.links [Footprint σ] [Footprint τ] (h : graph.Built) {edges : List (NodeId × NodeId × τ)}
    {arena left : Arena} (hrun : (graph.links edges).run arena = .ok (after, left)) : after.Built := by
  induction edges generalizing graph arena with
  | nil =>
    cases hrun
    exact h
  | cons edge rest ih =>
    obtain ⟨middle, hfirst, hrest⟩ := Charged.exists_of_bind_eq_ok hrun
    exact ih (h.link hfirst) hrest

/-- Four nodes on two cycles, one of which is a loop, with two edges that are alike. -/
def knotted : Charged (Digraph UInt32 UInt8) := do
  let graph ← Digraph.empty.addNodes [10, 11, 12, 13]
  graph.links [(⟨0⟩, ⟨2⟩, 1), (⟨0⟩, ⟨1⟩, 2), (⟨0⟩, ⟨2⟩, 1), (⟨2⟩, ⟨2⟩, 3), (⟨2⟩, ⟨3⟩, 4), (⟨3⟩, ⟨0⟩, 5),
    (⟨1⟩, ⟨3⟩, 6)]

lemma built_knotted {graph : Digraph UInt32 UInt8} {arena left : Arena}
    (h : knotted.run arena = .ok (graph, left)) : graph.Built := by
  obtain ⟨middle, hnodes, hlinks⟩ := Charged.exists_of_bind_eq_ok h
  exact (Built.empty.addNodes hnodes).links hlinks

/-- Whatever built it, the post order of a digraph is the order in which the textbook recursion emits its
nodes. So every node stands in it once, after all nodes to which its edges lead but those that lead
back to it; and if no path leads back to its start, after all that is reached from it. The only fault
is an exhausted arena. -/
theorem Built.postOrder_eq_depthFirst [Footprint σ] [Footprint τ] (h : graph.Built) :
    Charged.Pays graph.postOrder fun order => order.toList = graph.depthFirst ∧
      graph.PostOrdered order.toList ∧
      ((∀ id, ¬ Relation.TransGen graph.Adjacent id id) → ∀ before id later last,
        order.toList = before ++ id :: later → Relation.TransGen graph.Adjacent id last →
          last ∈ before) := by
  have hordered := h.closed.postOrdered
  apply (postOrder_pays h.closed).mono
  intro order horder
  rw [horder]
  exact ⟨rfl, hordered, fun hacyclic _ _ _ _ hsplit => hordered.mem_of_reaches hacyclic hsplit⟩

/-- The last node leads back to the first. So it is emitted first, and the node that it leads to last. -/
theorem postOrder_eq_depthFirst_knotted : ∃ graph arena order left,
    knotted.run { capacity := 4096 } = .ok (graph, arena) ∧ graph.Built ∧
      graph.postOrder.run arena = .ok (order, left) ∧ order.toList = graph.depthFirst ∧
      graph.PostOrdered order.toList ∧ order.toList = [⟨3⟩, ⟨2⟩, ⟨1⟩, ⟨0⟩] := by
  have hok : ((knotted.run { capacity := 4096 }).toOption.any fun (graph, arena) =>
      (graph.postOrder.run arena).toOption.any fun (order, _) =>
        decide (order.toList = [⟨3⟩, ⟨2⟩, ⟨1⟩, ⟨0⟩])) = true := by decide +kernel
  obtain ⟨⟨graph, arena⟩, hknotted, hok⟩ := exists_of_any hok
  obtain ⟨⟨order, left⟩, hrun, hlist⟩ := exists_of_any hok
  have hbuilt := built_knotted hknotted
  have hpays := Built.postOrder_eq_depthFirst hbuilt arena
  rw [hrun] at hpays
  exact ⟨graph, arena, order, left, hknotted, hbuilt, hrun, hpays.2.1, hpays.2.2.1,
    of_decide_eq_true hlist⟩

/-- Whatever built a digraph and whatever the test, restricting it leaves the subgraph that the nodes
which pass induce. -/
theorem Built.restrict_induced [Footprint σ] [Footprint τ] (h : graph.Built)
    (keep : NodeId → Node σ τ → Bool) :
    Charged.Ensures (graph.restrict keep) fun (table, after) => graph.Induced keep table after :=
  restrict_induces h.closed keep

/-- Without the second node the cycles through the others are left. -/
theorem restrict_induced_knotted : ∃ graph arena table after left,
    knotted.run { capacity := 4096 } = .ok (graph, arena) ∧ graph.Built ∧
      (graph.restrict fun id node => id = ⟨0⟩ ∨ 12 ≤ node.data).run arena =
        .ok ((table, after), left) ∧
      (graph.Induced (fun id node => id = ⟨0⟩ ∨ 12 ≤ node.data) table after) ∧
      table.toList = [some ⟨0⟩, none, some ⟨1⟩, some ⟨2⟩] ∧
      after.nodes.toList.map (fun node => (node.data, node.edges.toList.map fun edge =>
        (edge.dest, edge.data))) =
        [(10, [(⟨1⟩, 1), (⟨1⟩, 1)]), (12, [(⟨1⟩, 3), (⟨2⟩, 4)]), (13, [(⟨0⟩, 5)])] := by
  have hok : ((knotted.run { capacity := 4096 }).toOption.any fun (graph, arena) =>
      ((graph.restrict fun id node => id = ⟨0⟩ ∨ 12 ≤ node.data).run arena).toOption.any
        fun ((table, after), _) => decide (table.toList = [some ⟨0⟩, none, some ⟨1⟩, some ⟨2⟩]) &&
          decide (after.nodes.toList.map (fun node => (node.data, node.edges.toList.map fun edge =>
            (edge.dest, edge.data))) =
          [(10, [(⟨1⟩, 1), (⟨1⟩, 1)]), (12, [(⟨1⟩, 3), (⟨2⟩, 4)]), (13, [(⟨0⟩, 5)])])) = true := by
    decide +kernel
  obtain ⟨⟨graph, arena⟩, hknotted, hok⟩ := exists_of_any hok
  obtain ⟨⟨⟨table, after⟩, left⟩, hrun, hlists⟩ := exists_of_any hok
  rw [Bool.and_eq_true, decide_eq_true_eq, decide_eq_true_eq] at hlists
  have hbuilt := built_knotted hknotted
  have hinduced := (Built.restrict_induced hbuilt _ arena).of_eq_ok hrun
  exact ⟨graph, arena, table, after, left, hknotted, hbuilt, hrun, hinduced, hlists⟩

end Digraph

end PatternAutomata
