import PatternAutomata.Digraph.Restriction
import PatternAutomata.Proofs.DepthFirst
import PatternAutomata.Proofs.Room
import Mathlib.Data.List.Induction

/-!
# Restricting a digraph leaves the induced subgraph

The nodes that pass a test are numbered anew in table order, so that the new handle of each is its place
among them. The nodes of the smaller table are these nodes in this order. An edge is looked at once,
under the handle that its destination had: it is dropped if that node is, and otherwise led to the new
handle.
-/

namespace PatternAutomata

/-! ## Edges led anew -/

section Lists

variable {α β ε : Type} {fault : ε} {p : Prop}

/-- Where each step succeeds unless something is the case, so do all of them. -/
lemma mapM_ok_or {f : α → Except ε β} {g : α → β} {inputs : List α}
    (h : ∀ input ∈ inputs, f input = .ok (g input) ∨ f input = .error fault ∧ p) :
    inputs.mapM f = .ok (inputs.map g) ∨ inputs.mapM f = .error fault ∧ p := by
  induction inputs with
  | nil => exact .inl rfl
  | cons input rest ih =>
    rw [List.mapM_cons]
    rcases h input List.mem_cons_self with hok | ⟨herror, hp⟩
    · rcases ih fun other ho => h other (List.mem_cons_of_mem _ ho) with hrest | ⟨hrest, hp⟩
      · exact .inl (by rw [hok, hrest]; rfl)
      · exact .inr ⟨by rw [hok, hrest]; rfl, hp⟩
    · exact .inr ⟨by rw [herror]; rfl, hp⟩

lemma filterMapM_ok_or {f : α → Except ε (Option β)} {g : α → Option β} {inputs : List α}
    (h : ∀ input ∈ inputs, f input = .ok (g input) ∨ f input = .error fault ∧ p) :
    inputs.filterMapM f = .ok (inputs.filterMap g) ∨ inputs.filterMapM f = .error fault ∧ p := by
  induction inputs with
  | nil => exact .inl rfl
  | cons input rest ih =>
    rw [List.filterMapM_cons, List.filterMap_cons]
    rcases h input List.mem_cons_self with hok | ⟨herror, hp⟩
    · rw [hok]
      rcases ih fun other ho => h other (List.mem_cons_of_mem _ ho) with hrest | ⟨hrest, hp⟩
      · cases g input with
        | none => exact .inl hrest
        | some found => exact .inl (by simp only [hrest]; rfl)
      · cases g input with
        | none => exact .inr ⟨hrest, hp⟩
        | some found => exact .inr ⟨by simp only [hrest]; rfl, hp⟩
    · exact .inr ⟨by rw [herror]; rfl, hp⟩

end Lists

variable {σ τ : Type}

/-- An edge led to the new handle of its destination, if there is one. -/
def Edge.redirected? (table : Array (Option NodeId)) (edge : Edge τ) : Option (Edge τ) :=
  (table[edge.dest.toNat]?.getD none).map fun dest => { edge with dest }

/-- A node with its edges led anew, but for those that are led nowhere. -/
def Node.redirected (table : Array (Option NodeId)) (node : Node σ τ) : Node σ τ :=
  { node with edges := { node.edges with data := node.edges.data.filterMap (Edge.redirected? table) } }

/-- An edge can be led anew unless it leads out of the table. -/
lemma Edge.redirect_eq (table : Buffer (Option NodeId)) (edge : Edge τ) :
    edge.redirect table = .ok (edge.redirected? table.data) ∨
      edge.redirect table = .error .outOfBounds ∧ table.size ≤ edge.dest.toNat := by
  unfold Edge.redirect Edge.redirected? Buffer.fetch
  cases hhandle : table.data[edge.dest.toNat]? with
  | some handle => exact .inl rfl
  | none => exact .inr ⟨rfl, Array.getElem?_eq_none_iff.mp hhandle⟩

lemma Node.redirect_eq (table : Buffer (Option NodeId)) (node : Node σ τ) :
    node.redirect table = .ok (node.redirected table.data) ∨
      node.redirect table = .error .outOfBounds ∧
        ∃ edge ∈ node.edges.toList, table.size ≤ edge.dest.toNat := by
  have hedges := filterMapM_ok_or (p := ∃ edge ∈ node.edges.toList, table.size ≤ edge.dest.toNat)
    fun edge hedge => (Edge.redirect_eq table edge).imp_right fun h => ⟨h.1, edge, hedge, h.2⟩
  unfold Node.redirect Node.redirected
  rcases hedges with hok | ⟨herror, hout⟩
  · rw [hok, Buffer.toList, ← Array.toList_filterMap]
    exact .inl rfl
  · rw [herror]
    exact .inr ⟨rfl, hout⟩

/-- Nodes can be given their new edges unless an edge leads out of the table. -/
lemma Node.mapM_redirect (table : Buffer (Option NodeId)) (nodes : List (Node σ τ)) :
    nodes.mapM (Node.redirect table) = .ok (nodes.map (Node.redirected table.data)) ∨
      nodes.mapM (Node.redirect table) = .error .outOfBounds ∧
        ∃ node ∈ nodes, ∃ edge ∈ node.edges.toList, table.size ≤ edge.dest.toNat :=
  mapM_ok_or fun node hnode => (Node.redirect_eq table node).imp_right fun h => ⟨h.1, node, hnode, h.2⟩

namespace Digraph

variable {keep : NodeId → Node σ τ → Bool} {nodes : List (Node σ τ)}

/-! ## New handles -/

/-- The handles of the nodes that pass a test, in table order. -/
def passing (keep : NodeId → Node σ τ → Bool) (nodes : List (Node σ τ)) : List NodeId :=
  (nodes.zipIdx.filter fun (node, index) => keep ⟨index⟩ node).map fun (_, index) => ⟨index⟩

lemma passing_append_singleton (node : Node σ τ) : passing keep (nodes ++ [node]) =
    passing keep nodes ++ if keep ⟨nodes.length⟩ node then [⟨nodes.length⟩] else [] := by
  unfold passing
  rw [List.zipIdx_append, List.filter_append, List.map_append]
  by_cases h : keep ⟨nodes.length⟩ node = true
  · simp [h]
  · simp [h]

lemma mem_passing {id : NodeId} :
    id ∈ passing keep nodes ↔ ∃ node, nodes[id.toNat]? = some node ∧ keep id node = true := by
  unfold passing
  simp only [List.mem_map, List.mem_filter, Prod.exists, List.mem_zipIdx_iff_getElem?]
  constructor
  · rintro ⟨node, index, ⟨hn, hk⟩, rfl⟩
    exact ⟨node, hn, hk⟩
  · rintro ⟨node, hn, hk⟩
    exact ⟨node, id.toNat, ⟨hn, hk⟩, rfl⟩

lemma lt_length_of_mem_passing {id : NodeId} (h : id ∈ passing keep nodes) :
    id.toNat < nodes.length := by
  obtain ⟨node, hn, -⟩ := mem_passing.mp h
  exact (List.getElem?_eq_some_iff.mp hn).1

lemma pairwise_passing : (passing keep nodes).Pairwise fun a b => a.toNat < b.toNat := by
  induction nodes using List.reverseRecOn with
  | nil => exact List.Pairwise.nil
  | append_singleton nodes node ih =>
    rw [passing_append_singleton]
    refine List.pairwise_append.mpr ⟨ih, ?_, fun a ha b hb => ?_⟩
    · split <;> simp
    · have := lt_length_of_mem_passing ha
      split at hb
      · rwa [List.mem_singleton.mp hb]
      · cases hb

lemma nodup_passing : (passing keep nodes).Nodup :=
  pairwise_passing.imp fun h heq => by simp [heq] at h

lemma renumber_append (next : Nat) (flags flags' : List Bool) : renumber next (flags ++ flags') =
    renumber next flags ++ renumber (next + flags.countP id) flags' := by
  induction flags generalizing next with
  | nil => simp [renumber]
  | cons flag flags ih =>
    cases flag
    · simp [renumber, ih]
    · simp [renumber, ih, Nat.add_comm, Nat.add_left_comm]

lemma length_renumber (next : Nat) (flags : List Bool) :
    (renumber next flags).length = flags.length := by
  induction flags generalizing next with
  | nil => rfl
  | cons flag flags ih => cases flag <;> simp [renumber, ih]

/-- The new handles are counted up without gaps. -/
lemma filterMap_renumber (next : Nat) (flags : List Bool) : (renumber next flags).filterMap id =
    (List.range' next (flags.countP id)).map NodeId.mk := by
  induction flags generalizing next with
  | nil => rfl
  | cons flag flags ih =>
    cases flag
    · simpa [renumber] using ih next
    · simpa [renumber, List.range'_succ] using ih (next + 1)

lemma tested_const (graph : Digraph σ τ) (keep : Node σ τ → Bool) :
    graph.tested (fun _ => keep) = graph.nodes.toList.map keep := by
  refine List.ext_getElem ?_ ?_ <;> simp [tested]

lemma length_tested (graph : Digraph σ τ) (keep : NodeId → Node σ τ → Bool) :
    (graph.tested keep).length = graph.size := by
  simp [tested, Buffer.toList, size, Buffer.size]

lemma length_passing : (passing keep nodes).length =
    (nodes.mapIdx fun index node => keep ⟨index⟩ node).countP id := by
  induction nodes using List.reverseRecOn with
  | nil => rfl
  | append_singleton nodes node ih =>
    rw [passing_append_singleton, List.length_append, ih, List.mapIdx_concat]
    by_cases h : keep ⟨nodes.length⟩ node = true <;> simp [h]

/-- The new handle of a node that passes is its place among those that do. -/
lemma renumber_tested (graph : Digraph σ τ) (keep : NodeId → Node σ τ → Bool) :
    renumber 0 (graph.tested keep) = (List.range graph.size).map fun index =>
      if ⟨index⟩ ∈ passing keep graph.nodes.toList
      then some ⟨(passing keep graph.nodes.toList).idxOf ⟨index⟩⟩ else none := by
  rw [tested, show graph.size = graph.nodes.toList.length from rfl]
  generalize graph.nodes.toList = nodes
  induction nodes using List.reverseRecOn with
  | nil => rfl
  | append_singleton nodes node ih =>
    have hlast : (⟨nodes.length⟩ : NodeId) ∉ passing keep nodes := fun h =>
      Nat.lt_irrefl _ (lt_length_of_mem_passing h)
    rw [List.mapIdx_concat, renumber_append, ih, List.length_append, List.length_singleton,
      List.range_succ, List.map_append, passing_append_singleton, ← length_passing, Nat.zero_add]
    congr 1
    · apply List.map_congr_left
      intro index hi
      have hne : (⟨index⟩ : NodeId) ≠ ⟨nodes.length⟩ := by
        simpa using Nat.ne_of_lt (List.mem_range.mp hi)
      by_cases h : keep ⟨nodes.length⟩ node = true
      · by_cases hm : (⟨index⟩ : NodeId) ∈ passing keep nodes
        · simp [h, hm, List.idxOf_append_of_mem hm]
        · simp [h, hm, hne]
      · simp [h]
    · by_cases h : keep ⟨nodes.length⟩ node = true
      · simp [h, renumber, hlast, List.idxOf_append_of_notMem hlast]
      · simp [h, renumber, hlast]

/-! ## Survivors -/

lemma survivors_eq (graph : Digraph σ τ) (keep : NodeId → Node σ τ → Bool) :
    (graph.survivors (renumber 0 (graph.tested keep)).toArray).map some =
      (passing keep graph.nodes.toList).map fun id => graph.nodes.toList[id.toNat]? := by
  unfold survivors tested
  generalize graph.nodes.toList = nodes
  induction nodes using List.reverseRecOn with
  | nil => rfl
  | append_singleton nodes node ih =>
    have hlen : nodes.length =
        (renumber 0 (nodes.mapIdx fun index node => keep ⟨index⟩ node)).length := by
      rw [length_renumber, List.length_mapIdx]
    rw [List.mapIdx_concat, renumber_append, List.zip_append hlen, List.filterMap_append,
      List.map_append, ih, passing_append_singleton, List.map_append]
    congr 1
    · apply List.map_congr_left
      intro id hid
      rw [List.getElem?_append_left (lt_length_of_mem_passing hid)]
    · by_cases h : keep ⟨nodes.length⟩ node = true <;> simp [h, renumber]

lemma length_survivors_le (graph : Digraph σ τ) (table : Array (Option NodeId)) :
    (graph.survivors table).length ≤ graph.size := by
  refine Nat.le_trans (List.length_filterMap_le _ _) ?_
  rw [List.length_zip]
  exact Nat.min_le_left _ _

lemma rehouse_of_moved [Footprint σ] {table : Buffer (Option NodeId)} {nodes : List (Node σ τ)}
    (h : nodes.mapM (Node.redirect table) = .ok (nodes.map (Node.redirected table.data))) :
    rehouse table nodes = Buffer.ofList (nodes.map (Node.redirected table.data)) >>= fun nodes =>
      pure { nodes } := by
  unfold rehouse Buffer.ofList
  rw [h, List.length_map, bind_assoc]
  rfl

/-- Where every edge leads into the table, the nodes are moved with their edges led anew. -/
lemma rehouse_of_in [Footprint σ] {table : Buffer (Option NodeId)} {nodes : List (Node σ τ)}
    (h : ∀ node ∈ nodes, ∀ edge ∈ node.edges.toList, edge.dest.toNat < table.size) :
    rehouse table nodes = Buffer.ofList (nodes.map (Node.redirected table.data)) >>= fun nodes =>
      pure { nodes } :=
  rehouse_of_moved <| (Node.mapM_redirect table nodes).resolve_right
    fun ⟨_, node, hnode, edge, hedge, hle⟩ => Nat.not_lt.mpr hle (h node hnode edge hedge)

lemma mem_nodes_of_survivors {graph : Digraph σ τ} {table : Array (Option NodeId)} {node : Node σ τ}
    (h : node ∈ graph.survivors table) : node ∈ graph.nodes.data := by
  obtain ⟨⟨old, handle⟩, hmem, heq⟩ := List.mem_filterMap.mp h
  obtain ⟨_, -, rfl⟩ := Option.map_eq_some_iff.mp heq
  exact Array.mem_toList_iff.mp (List.of_mem_zip hmem).1

lemma restrict_ensures [Footprint σ] {graph : Digraph σ τ} (hg : graph.Closed)
    (keep : NodeId → Node σ τ → Bool) :
    Charged.Ensures (graph.restrict keep) fun (table, after) =>
      table.data = (renumber 0 (graph.tested keep)).toArray ∧ after.nodes.Fits ∧
      after.nodes.data = ((graph.survivors table.data).map (Node.redirected table.data)).toArray := by
  have hlimit : graph.size ≤ 2147483647 := hg.size_le
  have hmoderate : graph.size ≤ Buffer.moderate := by
    unfold Buffer.moderate
    omega
  unfold restrict
  apply (Buffer.ofList_ensures (by rwa [length_renumber, length_tested])).bind
  rintro table ⟨-, htable⟩
  have hsize : table.size = graph.size := by
    rw [Buffer.size, htable, List.size_toArray, length_renumber, length_tested]
  have hsurvivors := graph.length_survivors_le table.data
  rw [rehouse_of_in fun node hnode edge hedge => hsize ▸ hg.dest_lt node
    (mem_nodes_of_survivors hnode) edge (Array.mem_toList_iff.mp hedge), bind_assoc]
  apply (Buffer.ofList_ensures (by rw [List.length_map]; omega)).bind
  rintro nodes ⟨hfits, hnodes⟩
  rw [pure_bind, Charged.ensures_pure]
  exact ⟨htable, hfits, hnodes⟩

/-! ## The induced subgraph -/

lemma node_eq_ok_iff {graph : Digraph σ τ} {id : NodeId} {node : Node σ τ} :
    graph.node id = .ok node ↔ graph.nodes.data[id.toNat]? = some node := by
  unfold Digraph.node Buffer.fetch
  cases graph.nodes.data[id.toNat]? <;> simp

lemma closed_iff {graph : Digraph σ τ} : graph.Closed ↔ (∀ id node, graph.node id = .ok node →
    ∀ edge ∈ node.edges.toList, edge.dest.toNat < graph.size) ∧ graph.size ≤ NodeId.limit := by
  constructor
  · refine fun hg => ⟨fun id node hn edge hedge => ?_, hg.size_le⟩
    exact hg.dest_lt node (Array.mem_of_getElem? (node_eq_ok_iff.mp hn)) edge
      (Array.mem_toList_iff.mp hedge)
  · rintro ⟨hdest, hsize⟩
    refine ⟨fun node hmem edge hedge => ?_, hsize⟩
    obtain ⟨index, hn⟩ := Array.mem_iff_getElem?.mp hmem
    exact hdest ⟨index⟩ node (node_eq_ok_iff.mpr hn) edge (Array.mem_toList_iff.mpr hedge)

/-- Whether the node with a handle passes a test. -/
def keeps (graph : Digraph σ τ) (keep : NodeId → Node σ τ → Bool) (id : NodeId) : Bool :=
  (graph.nodes.data[id.toNat]?).any (keep id)

/-- An edge that carries what another one carries, to where that one's destination has been sent. -/
structure Led (table : Buffer (Option NodeId)) (edge led : Edge τ) : Prop where
  data_eq : led.data = edge.data
  dest_eq : table.get? edge.dest.toNat = some (some led.dest)

/-- Nodes that pass a test have become a digraph of their own: they are numbered from zero on in table
order, and have lost the edges that led to other nodes. -/
structure Induced (graph : Digraph σ τ) (keep : NodeId → Node σ τ → Bool)
    (table : Buffer (Option NodeId)) (after : Digraph σ τ) : Prop where
  size_eq : table.size = graph.size
  numbered : table.toList.filterMap id = (List.range after.size).map NodeId.mk
  dropped : ∀ {id node}, graph.node id = .ok node → keep id node = false →
    table.get? id.toNat = some none
  kept : ∀ {id node}, graph.node id = .ok node → keep id node = true → ∃ new found,
    table.get? id.toNat = some (some new) ∧ after.node new = .ok found ∧ found.data = node.data ∧
      List.Forall₂ (Led table) (node.edges.toList.filter fun edge => graph.keeps keep edge.dest)
        found.edges.toList
  dest_lt : ∀ {id node}, after.node id = .ok node →
    ∀ edge ∈ node.edges.toList, edge.dest.toNat < after.size

section Restricted

variable {graph after : Digraph σ τ} {handles : Array (Option NodeId)}

lemma keeps_iff {id : NodeId} :
    graph.keeps keep id = true ↔ id ∈ passing keep graph.nodes.toList := by
  rw [mem_passing, keeps, Option.any_eq_true]
  simp [Buffer.toList]

variable (hhandles : handles = (renumber 0 (graph.tested keep)).toArray)
include hhandles

lemma getElem?_of_restricted {id : NodeId} (hlt : id.toNat < graph.size) : handles[id.toNat]? =
    some (if graph.keeps keep id
      then some ⟨(passing keep graph.nodes.toList).idxOf id⟩ else none) := by
  rw [hhandles, renumber_tested]
  simp [hlt, keeps_iff]

/-- A node that passes is sent to its place among those that do, any other nowhere. -/
lemma getD_of_restricted (id : NodeId) : handles[id.toNat]?.getD none =
    if graph.keeps keep id then some ⟨(passing keep graph.nodes.toList).idxOf id⟩ else none := by
  by_cases hlt : id.toNat < graph.size
  · rw [getElem?_of_restricted hhandles hlt, Option.getD_some]
  · have hnone : handles[id.toNat]? = none := by
      rw [hhandles]
      simpa [length_renumber, length_tested] using hlt
    have hdrops : ¬ graph.keeps keep id = true := fun h =>
      hlt (lt_length_of_mem_passing (keeps_iff.mp h))
    rw [hnone, if_neg hdrops]
    rfl

lemma redirected?_of_restricted (edge : Edge τ) : Edge.redirected? handles edge =
    if graph.keeps keep edge.dest
    then some { edge with dest := ⟨(passing keep graph.nodes.toList).idxOf edge.dest⟩ } else none := by
  rw [Edge.redirected?, getD_of_restricted hhandles]
  split <;> rfl

lemma forall₂_redirected {table : Buffer (Option NodeId)} (htable : handles = table.data)
    (edges : List (Edge τ)) :
    List.Forall₂ (Led table) (edges.filter fun edge => graph.keeps keep edge.dest)
      (edges.filterMap (Edge.redirected? handles)) := by
  induction edges with
  | nil => exact .nil
  | cons edge edges ih =>
    rw [List.filter_cons, List.filterMap_cons, redirected?_of_restricted hhandles]
    by_cases hk : graph.keeps keep edge.dest = true
    · have hlt := lt_length_of_mem_passing (keeps_iff.mp hk)
      have hget := getElem?_of_restricted hhandles hlt
      rw [htable, if_pos hk] at hget
      simp only [hk, if_true]
      exact .cons ⟨rfl, hget⟩ ih
    · simp only [hk, Bool.false_eq_true, if_false]
      exact ih

variable (hnodes : after.nodes.data =
  ((graph.survivors handles).map (Node.redirected handles)).toArray)
include hnodes

lemma size_of_restricted : after.size = (passing keep graph.nodes.toList).length := by
  have hlength := congrArg List.length (graph.survivors_eq keep)
  rw [← hhandles, List.length_map, List.length_map] at hlength
  simpa [size, Buffer.size, hnodes] using hlength

lemma node_of_restricted {index : Nat} {id : NodeId}
    (hid : (passing keep graph.nodes.toList)[index]? = some id) :
    after.nodes.data[index]? = (graph.nodes.data[id.toNat]?).map (Node.redirected handles) := by
  have hplace : ((graph.survivors handles).map some)[index]? =
      some (graph.nodes.data[id.toNat]?) := by
    rw [hhandles, survivors_eq, List.getElem?_map, hid, Option.map_some, Buffer.toList,
      Array.getElem?_toList]
  obtain ⟨node, hn⟩ : ∃ node, graph.nodes.data[id.toNat]? = some node := by
    have hmem := List.mem_of_getElem? hid
    obtain ⟨node, hn, -⟩ := mem_passing.mp hmem
    exact ⟨node, by rwa [Buffer.toList, Array.getElem?_toList] at hn⟩
  rw [hn, List.getElem?_map] at hplace
  obtain ⟨found, hfound, hsome⟩ := Option.map_eq_some_iff.mp hplace
  cases hsome
  simp [hnodes, hfound, hn]

/-- A node that passes is found at its place, with its edges led anew. -/
lemma exists_of_restricted {id : NodeId} {node : Node σ τ}
    (hn : graph.nodes.data[id.toNat]? = some node) (hk : keep id node = true) : ∃ new : NodeId,
      handles[id.toNat]? = some (some new) ∧
        after.nodes.data[new.toNat]? = some (node.redirected handles) := by
  have hlt : id.toNat < graph.size := (Array.getElem?_eq_some_iff.mp hn).1
  have hkeeps : graph.keeps keep id = true := by simp [keeps, hn, hk]
  have hplace := List.idxOf_lt_length_of_mem (keeps_iff.mp hkeeps)
  have hid := List.getElem?_eq_getElem hplace
  rw [List.getElem_idxOf] at hid
  refine ⟨⟨(passing keep graph.nodes.toList).idxOf id⟩, ?_, ?_⟩
  · rw [getElem?_of_restricted hhandles hlt, if_pos hkeeps]
  · rw [node_of_restricted hhandles hnodes hid, hn]
    rfl

/-- What is still led to is among the nodes that pass. -/
lemma dest_lt_of_restricted {index : Nat} {node : Node σ τ}
    (hn : after.nodes.data[index]? = some node) {edge : Edge τ} (hedge : edge ∈ node.edges.toList) :
    edge.dest.toNat < after.size := by
  have hlt : index < after.size := (Array.getElem?_eq_some_iff.mp hn).1
  rw [size_of_restricted hhandles hnodes] at hlt ⊢
  rw [node_of_restricted hhandles hnodes (List.getElem?_eq_getElem hlt), Option.map_eq_some_iff] at hn
  obtain ⟨old, -, rfl⟩ := hn
  rw [Node.redirected, Buffer.toList, Array.toList_filterMap, List.mem_filterMap] at hedge
  obtain ⟨oldEdge, -, hedge⟩ := hedge
  rw [redirected?_of_restricted hhandles] at hedge
  by_cases hk : graph.keeps keep oldEdge.dest = true
  · rw [if_pos hk] at hedge
    cases hedge
    exact List.idxOf_lt_length_of_mem (keeps_iff.mp hk)
  · rw [if_neg hk] at hedge
    cases hedge

end Restricted

theorem induced_of_restricted {graph after : Digraph σ τ} {table : Buffer (Option NodeId)}
    (htable : table.data = (renumber 0 (graph.tested keep)).toArray)
    (hnodes : after.nodes.data =
      ((graph.survivors table.data).map (Node.redirected table.data)).toArray) :
    graph.Induced keep table after where
  size_eq := by
    rw [Buffer.size, htable, List.size_toArray, length_renumber, length_tested]
  numbered := by
    rw [Buffer.toList, htable, filterMap_renumber, size_of_restricted htable hnodes, length_passing,
      List.range_eq_range']
    rfl
  dropped := by
    intro id node hn hk
    rw [node_eq_ok_iff] at hn
    have hlt : id.toNat < graph.size := (Array.getElem?_eq_some_iff.mp hn).1
    have hkeeps : graph.keeps keep id = false := by simp [keeps, hn, hk]
    rw [Buffer.get?, getElem?_of_restricted htable hlt, hkeeps]
    rfl
  kept := by
    intro id node hn hk
    obtain ⟨new, hnew, hfound⟩ := exists_of_restricted htable hnodes (node_eq_ok_iff.mp hn) hk
    refine ⟨new, node.redirected table.data, hnew, node_eq_ok_iff.mpr hfound, rfl, ?_⟩
    rw [Node.redirected, Buffer.toList, Buffer.toList, Array.toList_filterMap]
    exact forall₂_redirected htable rfl _
  dest_lt hn _ hedge := dest_lt_of_restricted htable hnodes (node_eq_ok_iff.mp hn) hedge

lemma restrict_induces [Footprint σ] {graph : Digraph σ τ} (hg : graph.Closed)
    (keep : NodeId → Node σ τ → Bool) :
    Charged.Ensures (graph.restrict keep) fun (table, after) => graph.Induced keep table after := by
  apply (restrict_ensures hg keep).mono
  rintro ⟨table, after⟩ ⟨htable, -, hnodes⟩
  exact induced_of_restricted htable hnodes

lemma Induced.closed {graph after : Digraph σ τ} {table : Buffer (Option NodeId)}
    (h : graph.Induced keep table after) (hs : graph.size ≤ NodeId.limit) : after.Closed := by
  refine closed_iff.mpr ⟨fun id node hn => h.dest_lt hn, Nat.le_trans ?_ hs⟩
  have hlength := congrArg List.length h.numbered
  have hle := List.length_filterMap_le id table.toList
  rw [hlength, List.length_map, List.length_range] at hle
  exact h.size_eq ▸ hle

end Digraph

end PatternAutomata
