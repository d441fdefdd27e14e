import PatternAutomata.Digraph.PostOrder
import Mathlib.Data.List.Basic
import Mathlib.Data.List.Nodup
import Mathlib.Data.List.Perm.Subperm
import Mathlib.Logic.Relation

/-!
# Depth-first post order by recursion

The textbook recursion visits nodes one after the other. A node that was visited before is passed over;
any other is marked, the nodes that its edges lead to are visited in the order of the edges, and then
the node is emitted. The recursion ends because every node that it enters is one fewer left to visit.

When a node is emitted, the nodes that its edges lead to have all been visited, but those still entered
have not been emitted. A node is entered only on the way from those entered before it. So an edge whose
destination is emitted no earlier than its source closes a cycle.
-/

namespace PatternAutomata

namespace Digraph

variable {σ τ : Type}

/-- The nodes that the edges of a node lead to, in the order of the edges. -/
def successors (graph : Digraph σ τ) (id : NodeId) : List NodeId :=
  (graph.nodes.data[id.toNat]?).elim [] fun node => node.edges.toList.map Edge.dest

/-- Whether some edge of a node leads to another. -/
def Adjacent (graph : Digraph σ τ) (id next : NodeId) : Prop := next ∈ graph.successors id

/-- Whether some path leads from one node to another. -/
abbrev Reaches (graph : Digraph σ τ) : NodeId → NodeId → Prop :=
  Relation.ReflTransGen graph.Adjacent

/-- What visits lead to that start with some nodes not visited. -/
structure Visited (fresh : List NodeId) where
  /-- Nodes that are still not visited. -/
  left : List NodeId
  /-- Nodes emitted, in this order. -/
  order : List NodeId
  length_le : left.length ≤ fresh.length

lemma length_erase_lt {fresh : List NodeId} {id : NodeId} (h : id ∈ fresh) :
    (fresh.erase id).length < fresh.length := by
  have hpos := List.length_pos_of_mem h
  rw [List.length_erase_of_mem h]
  omega

/-- Visits nodes one after the other, of which those in `fresh` were not visited before. -/
def visit (graph : Digraph σ τ) (fresh ids : List NodeId) : Visited fresh :=
  match ids with
  | [] => ⟨fresh, [], Nat.le_refl _⟩
  | id :: rest =>
    if h : id ∈ fresh then
      let below := visit graph (fresh.erase id) (graph.successors id)
      let after := visit graph below.left rest
      { left := after.left
        order := below.order ++ id :: after.order
        length_le :=
          Nat.le_trans after.length_le
            (Nat.le_trans below.length_le (Nat.le_of_lt (length_erase_lt h))) }
    else visit graph fresh rest
termination_by (fresh.length, ids.length)
decreasing_by
  · exact Prod.Lex.left _ _ (length_erase_lt h)
  · exact Prod.Lex.left _ _ (Nat.lt_of_le_of_lt (Visited.length_le _) (length_erase_lt h))
  · exact Prod.Lex.right _ (Nat.lt_succ_self _)

/-- The handles of all nodes, in table order. -/
def handles (graph : Digraph σ τ) : List NodeId := (List.range graph.size).map NodeId.mk

/-- The nodes in the order in which the recursion emits them, if it visits the whole table in its
order. -/
def depthFirst (graph : Digraph σ τ) : List NodeId := (graph.visit graph.handles graph.handles).order

variable (graph : Digraph σ τ) {fresh rest : List NodeId} {id : NodeId}

@[simp] lemma visit_nil (fresh : List NodeId) :
    graph.visit fresh [] = ⟨fresh, [], Nat.le_refl _⟩ := by
  rw [visit]

lemma left_visit_cons (h : id ∈ fresh) : (graph.visit fresh (id :: rest)).left =
    (graph.visit (graph.visit (fresh.erase id) (graph.successors id)).left rest).left := by
  rw [visit, dif_pos h]

lemma order_visit_cons (h : id ∈ fresh) : (graph.visit fresh (id :: rest)).order =
    (graph.visit (fresh.erase id) (graph.successors id)).order ++
      id :: (graph.visit (graph.visit (fresh.erase id) (graph.successors id)).left rest).order := by
  rw [visit, dif_pos h]

lemma visit_cons_of_notMem (h : id ∉ fresh) :
    graph.visit fresh (id :: rest) = graph.visit fresh rest := by
  rw [visit, dif_neg h]

/-- What is visited first makes no difference to how the others are visited, but for what it leaves. -/
lemma left_visit_first (fresh rest : List NodeId) (id : NodeId) :
    (graph.visit fresh (id :: rest)).left =
      (graph.visit (graph.visit fresh [id]).left rest).left := by
  by_cases h : id ∈ fresh
  · rw [left_visit_cons _ h, left_visit_cons _ h, visit_nil]
  · rw [visit_cons_of_notMem _ h, visit_cons_of_notMem _ h, visit_nil]

lemma order_visit_first (fresh rest : List NodeId) (id : NodeId) :
    (graph.visit fresh (id :: rest)).order = (graph.visit fresh [id]).order ++
      (graph.visit (graph.visit fresh [id]).left rest).order := by
  by_cases h : id ∈ fresh
  · rw [order_visit_cons _ h, order_visit_cons _ h, left_visit_cons _ h, visit_nil]
    simp
  · rw [visit_cons_of_notMem _ h, visit_cons_of_notMem _ h, visit_nil]
    rfl

/-- The nodes that were not visited before have been emitted or are left. -/
lemma perm_visit (fresh ids : List NodeId) :
    fresh.Perm ((graph.visit fresh ids).order ++ (graph.visit fresh ids).left) := by
  fun_induction visit graph fresh ids with
  | case1 fresh => exact .refl fresh
  | case2 fresh id rest h below after hbelow hafter =>
    have hrest : (fresh.erase id).Perm (below.order ++ (after.order ++ after.left)) :=
      hbelow.trans (hafter.append_left below.order)
    rw [List.append_assoc, List.cons_append]
    exact (List.perm_cons_erase h).trans ((hrest.cons id).trans List.perm_middle.symm)
  | case3 fresh id rest h ih => exact ih

lemma mem_iff_visit (fresh ids : List NodeId) (id : NodeId) : id ∈ fresh ↔
    id ∈ (graph.visit fresh ids).order ∨ id ∈ (graph.visit fresh ids).left := by
  rw [(graph.perm_visit fresh ids).mem_iff, List.mem_append]

lemma nodup_left (hd : fresh.Nodup) (ids : List NodeId) : (graph.visit fresh ids).left.Nodup :=
  ((graph.perm_visit fresh ids).nodup_iff.mp hd).of_append_right

/-! ## What is emitted -/

/-- Every node to be visited has been visited before or has been emitted. -/
lemma notMem_left (hd : fresh.Nodup) {ids : List NodeId} (h : id ∈ ids) :
    id ∉ (graph.visit fresh ids).left := by
  fun_induction visit graph fresh ids with
  | case1 fresh => cases h
  | case2 fresh entered rest _ below after _ ih' =>
    intro hlast
    have hleft : id ∈ below.left := (graph.mem_iff_visit _ rest id).mpr (.inr hlast)
    rcases List.mem_cons.mp h with rfl | hrest
    · exact hd.not_mem_erase ((graph.mem_iff_visit _ (graph.successors id) id).mpr (.inr hleft))
    · exact ih' (graph.nodup_left (hd.erase entered) _) hrest hlast
  | case3 fresh passed rest hknown ih =>
    intro hlast
    rcases List.mem_cons.mp h with rfl | hrest
    · exact hknown ((graph.mem_iff_visit fresh rest id).mpr (.inr hlast))
    · exact ih hd hrest hlast

/-- Every node that is emitted is reached from one that was to be visited. -/
lemma exists_reaches {ids : List NodeId} (h : id ∈ (graph.visit fresh ids).order) :
    ∃ start ∈ ids, graph.Reaches start id := by
  fun_induction visit graph fresh ids with
  | case1 fresh => cases h
  | case2 fresh entered rest _ below after ih ih' =>
    rw [List.mem_append, List.mem_cons] at h
    rcases h with hbelow | rfl | hafter
    · obtain ⟨start, hstart, hreaches⟩ := ih hbelow
      exact ⟨entered, List.mem_cons_self, .head hstart hreaches⟩
    · exact ⟨id, List.mem_cons_self, .refl⟩
    · obtain ⟨start, hstart, hreaches⟩ := ih' hafter
      exact ⟨start, List.mem_cons_of_mem _ hstart, hreaches⟩
  | case3 fresh passed rest _ ih =>
    obtain ⟨start, hstart, hreaches⟩ := ih h
    exact ⟨start, List.mem_cons_of_mem _ hstart, hreaches⟩

omit graph in
/-- Where an element stands in a list that was put together around another one. -/
lemma append_cons_cases {below after before later : List NodeId} {entered id : NodeId}
    (h : below ++ entered :: after = before ++ id :: later) :
    (∃ between, below = before ++ id :: between) ∨ (before = below ∧ id = entered) ∨
      ∃ between, before = below ++ entered :: between ∧ after = between ++ id :: later := by
  rcases List.append_eq_append_iff.mp h with ⟨between, hbefore, hrest⟩ | ⟨between, hbelow, hrest⟩
  · cases between with
    | nil =>
      obtain ⟨rfl, -⟩ := List.cons.inj hrest
      exact .inr (.inl ⟨by simpa using hbefore, rfl⟩)
    | cons other between =>
      obtain ⟨rfl, hafter⟩ := List.cons.inj hrest
      exact .inr (.inr ⟨between, hbefore, hafter⟩)
  · cases between with
    | nil =>
      obtain ⟨rfl, -⟩ := List.cons.inj hrest
      exact .inr (.inl ⟨by simpa using hbelow.symm, rfl⟩)
    | cons other between =>
      obtain ⟨rfl, -⟩ := List.cons.inj hrest
      exact .inl ⟨between, hbelow⟩

/-- Of the nodes that the edges of an emitted node lead to, those that were not visited before have been
emitted before it, or lead back to it. -/
lemma mem_before_or_reaches (hd : fresh.Nodup) {ids before later : List NodeId} {next : NodeId}
    (horder : (graph.visit fresh ids).order = before ++ id :: later)
    (hnext : graph.Adjacent id next) (hfresh : next ∈ fresh) :
    next ∈ before ∨ graph.Reaches next id := by
  fun_induction visit graph fresh ids generalizing before later with
  | case1 fresh => simp at horder
  | case2 fresh entered rest _ below after ih ih' =>
    have hrest : next ≠ entered → next ∈ fresh.erase entered := fun hne =>
      (List.mem_erase_of_ne hne).mpr hfresh
    rcases append_cons_cases horder with ⟨between, hbelow⟩ | ⟨rfl, rfl⟩ | ⟨between, rfl, hafter⟩
    · -- the source was reached from `entered` before that node was emitted
      by_cases heq : next = entered
      · have hmem : id ∈ below.order := by simp [hbelow]
        obtain ⟨start, hstart, hreaches⟩ := graph.exists_reaches hmem
        exact .inr (heq ▸ .head hstart hreaches)
      · exact ih (hd.erase entered) hbelow (hrest heq)
    · by_cases heq : next = id
      · exact .inr (heq ▸ .refl)
      · have hleft := graph.notMem_left (hd.erase id) hnext
        exact .inl (((graph.mem_iff_visit _ _ next).mp (hrest heq)).resolve_right hleft)
    · by_cases heq : next = entered
      · exact .inl (by simp [heq])
      · rcases (graph.mem_iff_visit _ (graph.successors entered) next).mp (hrest heq) with hbefore | hleft
        · exact .inl (List.mem_append_left _ hbefore)
        · have hlater := ih' (graph.nodup_left (hd.erase entered) _) hafter hleft
          exact hlater.imp_left fun h => by simp [h]
  | case3 fresh passed rest _ ih => exact ih hd horder hfresh

/-! ## The whole table -/

/-- The nodes of a table in an order in which each comes after those to which its edges lead, except
where these lead back to it. -/
structure PostOrdered (graph : Digraph σ τ) (order : List NodeId) : Prop where
  nodup : order.Nodup
  mem_iff : ∀ id, id ∈ order ↔ id.toNat < graph.size
  mem_or_reaches : ∀ {before id later next}, order = before ++ id :: later →
    graph.Adjacent id next → next ∈ before ∨ graph.Reaches next id

/-- Where no path leads back to its start, every node comes after all that is reached from it. -/
lemma PostOrdered.mem_of_reaches {graph : Digraph σ τ} {order : List NodeId}
    (h : graph.PostOrdered order) (hacyclic : ∀ id, ¬ Relation.TransGen graph.Adjacent id id)
    {before later : List NodeId} {id last : NodeId} (horder : order = before ++ id :: later)
    (hpath : Relation.TransGen graph.Adjacent id last) : last ∈ before := by
  have hstep : ∀ {before later id next}, order = before ++ id :: later →
      graph.Adjacent id next → next ∈ before := by
    intro before later id next horder hnext
    exact (h.mem_or_reaches horder hnext).resolve_right fun hback =>
      hacyclic id (.head' hnext hback)
  induction hpath with
  | single hnext => exact hstep horder hnext
  | tail _ hnext ih =>
    obtain ⟨before', between, rfl⟩ := List.append_of_mem ih
    rw [List.append_assoc, List.cons_append] at horder
    exact List.mem_append_left _ (hstep horder hnext)

lemma mem_handles {graph : Digraph σ τ} : id ∈ graph.handles ↔ id.toNat < graph.size := by
  rw [handles, List.mem_map]
  constructor
  · rintro ⟨index, hindex, rfl⟩
    exact List.mem_range.mp hindex
  · exact fun hlt => ⟨id.toNat, List.mem_range.mpr hlt, rfl⟩

lemma nodup_handles : graph.handles.Nodup :=
  List.nodup_range.map fun _ _ heq => congrArg NodeId.toNat heq

variable {graph} in
lemma length_le_size {ids : List NodeId} (hd : ids.Nodup) (hlt : ∀ id ∈ ids, id.toNat < graph.size) :
    ids.length ≤ graph.size := by
  have hsub : ids ⊆ graph.handles := fun id hid => mem_handles.mpr (hlt id hid)
  simpa [handles] using (List.subperm_of_subset hd hsub).length_le

/-- Every edge leads to a node of the table, which fits the handles. -/
structure Closed (graph : Digraph σ τ) : Prop where
  dest_lt : ∀ node ∈ graph.nodes.data, ∀ edge ∈ node.edges.data, edge.dest.toNat < graph.size
  size_le : graph.size ≤ NodeId.limit

variable {graph}

lemma Closed.lt_size (hg : graph.Closed) {next : NodeId} (hnext : graph.Adjacent id next) :
    next.toNat < graph.size := by
  unfold Adjacent successors at hnext
  cases hn : graph.nodes.data[id.toNat]? with
  | none => simp [hn] at hnext
  | some node =>
    simp only [hn, Option.elim_some, List.mem_map] at hnext
    obtain ⟨edge, hedge, rfl⟩ := hnext
    exact hg.dest_lt node (Array.mem_of_getElem? hn) edge (Array.mem_toList_iff.mp hedge)

lemma Closed.postOrdered (hg : graph.Closed) : graph.PostOrdered graph.depthFirst where
  nodup := ((graph.perm_visit _ _).nodup_iff.mp graph.nodup_handles).of_append_left
  mem_iff id := by
    rw [← mem_handles, graph.mem_iff_visit graph.handles graph.handles id, or_iff_left_of_imp]
    · rfl
    · intro hleft
      have hmem := (graph.mem_iff_visit graph.handles graph.handles id).mpr (.inr hleft)
      exact absurd hleft (graph.notMem_left graph.nodup_handles hmem)
  mem_or_reaches horder hnext := graph.mem_before_or_reaches graph.nodup_handles horder hnext
    (mem_handles.mpr (hg.lt_size hnext))

end Digraph

end PatternAutomata
