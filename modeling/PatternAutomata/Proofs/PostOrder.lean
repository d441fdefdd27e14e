import PatternAutomata.Proofs.DepthFirst
import PatternAutomata.Proofs.Ring
import Mathlib.Algebra.GroupWithZero.Nat
import Mathlib.Algebra.Order.BigOperators.Group.Finset

/-!
# Post orders are built by the recursion

A depth-first walk has met the nodes that it has left behind and those that it has entered and not
yet left. Every step uses up one unit of what is pending: an edge not yet followed from a node on the
stack, a node on the stack, or a node not yet met with all its edges. So the walk ends within its
bound.

The stack stands for the calls of the recursion that have not returned: each node on it has yet to
visit the nodes that its edges not yet followed lead to, and is then emitted. No step changes the order
that is built if all these calls return, so it is the order in which the recursion emits the nodes.
-/

namespace PatternAutomata

namespace Buffer

variable {α : Type} {buffer : Buffer α} {below : List α} {last : α}

lemma toList_setBack (h : buffer.toList = below ++ [last]) (value : α) :
    (buffer.setBack value).toList = below ++ [value] := by
  have hdata : buffer.data = (below ++ [last]).toArray := by rw [← h, toList, Array.toArray_toList]
  simp [setBack, set, size, toList, hdata]

lemma toList_pop (h : buffer.toList = below ++ [last]) : buffer.pop.2.toList = below := by
  have hdata : buffer.data = (below ++ [last]).toArray := by rw [← h, toList, Array.toArray_toList]
  simp [pop, toList, hdata]

end Buffer

namespace Digraph

variable {σ τ : Type}

def degree (graph : Digraph σ τ) (id : NodeId) : Nat :=
  (graph.nodes.data[id.toNat]?).elim 0 fun node => node.edges.size

lemma edgeCount_eq (graph : Digraph σ τ) :
    graph.edgeCount = ∑ i ∈ Finset.range graph.size, graph.degree ⟨i⟩ := by
  have hlist : ∀ nodes : List (Node σ τ),
      nodes.foldl (fun count node => count + node.edges.size) 0 =
        ∑ i ∈ Finset.range nodes.length, (nodes[i]?).elim 0 fun node => node.edges.size := by
    intro nodes
    induction nodes using List.reverseRecOn with
    | nil => rfl
    | append_singleton nodes node ih =>
      rw [List.foldl_append, ih, List.length_append, List.length_singleton, Finset.sum_range_succ]
      simp only [List.foldl_cons, List.foldl_nil, List.getElem?_concat_length, Option.elim_some,
        Nat.add_right_cancel_iff]
      apply Finset.sum_congr rfl
      intro i hi
      rw [List.getElem?_append_left (Finset.mem_range.mp hi)]
  unfold edgeCount
  rw [← Array.foldl_toList, hlist]
  simp [size, Buffer.size, degree]

/-- What the recursion emits once it has visited some nodes: the nodes entered, the last one first, each
after those that its edges not yet followed lead to, and then what some roots lead to. -/
def remaining (graph : Digraph σ τ) (roots : List NodeId) :
    List NodeId → List (NodeId × Nat) → List NodeId
  | fresh, [] => (graph.visit fresh roots).order
  | fresh, (id, followed) :: entered =>
    let calls := graph.visit fresh ((graph.successors id).drop followed)
    calls.order ++ id :: remaining graph roots calls.left entered

namespace Walk

/-- The nodes that a walk has met: those it has left, and those on its stack. -/
def known (walk : Walk) : List NodeId := walk.order.toList ++ walk.stack.toList.map Prod.fst

/-- How many steps a walk can still take. -/
def pending (graph : Digraph σ τ) (walk : Walk) : Nat :=
  (walk.stack.toList.map fun (id, followed) => graph.degree id - followed + 1).sum +
    ∑ i ∈ Finset.range graph.size, if ⟨i⟩ ∈ walk.known then 0 else graph.degree ⟨i⟩ + 1

/-- A walk has met each node once, knows which ones, and has followed no more edges than there are. -/
structure Coherent (graph : Digraph σ τ) (walk : Walk) : Prop where
  order_snug : walk.order.Snug
  stack_snug : walk.stack.Snug
  met_orderly : walk.met.Orderly
  nodup : walk.known.Nodup
  lt_size : ∀ id ∈ walk.known, id.toNat < graph.size
  met_iff : ∀ id, walk.met.HasKey id ↔ id ∈ walk.known
  followed_le : ∀ entry ∈ walk.stack.toList, entry.2 ≤ graph.degree entry.1

variable {graph : Digraph σ τ} {walk : Walk}

/-- Meeting one node more turns what it was good for into an entry of the stack. -/
lemma sum_unknown {known known' : List NodeId} {id : NodeId} (hlt : id.toNat < graph.size)
    (hnew : id ∉ known) (hk : ∀ other, other ∈ known' ↔ other ∈ known ∨ other = id) :
    (∑ i ∈ Finset.range graph.size, if ⟨i⟩ ∈ known' then 0 else graph.degree ⟨i⟩ + 1) +
      (graph.degree id + 1) =
    ∑ i ∈ Finset.range graph.size, if ⟨i⟩ ∈ known then 0 else graph.degree ⟨i⟩ + 1 := by
  have hmem : id.toNat ∈ Finset.range graph.size := Finset.mem_range.mpr hlt
  have hrest : ∀ i ∈ (Finset.range graph.size).erase id.toNat,
      (if (⟨i⟩ : NodeId) ∈ known' then 0 else graph.degree ⟨i⟩ + 1) =
        if (⟨i⟩ : NodeId) ∈ known then 0 else graph.degree ⟨i⟩ + 1 := by
    intro i hi
    have hne : (⟨i⟩ : NodeId) ≠ id := by
      rintro rfl
      simp at hi
    simp [hk, hne]
  rw [← Finset.add_sum_erase _ _ hmem, ← Finset.add_sum_erase _ _ hmem, Finset.sum_congr rfl hrest]
  have h1 : (⟨id.toNat⟩ : NodeId) ∈ known' := (hk id).mpr (.inr rfl)
  have h2 : (⟨id.toNat⟩ : NodeId) ∉ known := hnew
  have hdegree : graph.degree ⟨id.toNat⟩ = graph.degree id := rfl
  simp only [h1, h2, if_true, if_false, hdegree]
  omega

lemma Coherent.push {order : Buffer NodeId} {met met' : KeySet (@Fnv.ofKey NodeId _)}
    {stack stack' : Buffer (NodeId × Nat)} {id : NodeId} (hw : Coherent graph ⟨order, met, stack⟩)
    (hlt : id.toNat < graph.size) (hnew : id ∉ known ⟨order, met, stack⟩) (ho : met'.Orderly)
    (hkeys : ∀ other, met'.HasKey other ↔ met.HasKey other ∨ other = id) (hsnug : stack'.Snug)
    (hstack : stack'.toList = stack.toList ++ [(id, 0)]) :
    Coherent graph ⟨order, met', stack'⟩ ∧
      pending graph ⟨order, met', stack'⟩ = pending graph ⟨order, met, stack⟩ := by
  have hknown : known ⟨order, met', stack'⟩ = known ⟨order, met, stack⟩ ++ [id] := by
    simp [known, hstack]
  have hk : ∀ other, other ∈ known ⟨order, met', stack'⟩ ↔
      other ∈ known ⟨order, met, stack⟩ ∨ other = id := by
    intro other
    rw [hknown, List.mem_append, List.mem_singleton]
  refine ⟨⟨hw.order_snug, hsnug, ho, ?_, ?_, ?_, ?_⟩, ?_⟩
  · rw [hknown]
    exact List.nodup_append'.mpr ⟨hw.nodup, List.nodup_singleton id, by simpa using hnew⟩
  · intro other hmem
    rcases (hk other).mp hmem with h | rfl
    · exact hw.lt_size other h
    · exact hlt
  · intro other
    rw [hkeys, hk, hw.met_iff]
  · intro entry hmem
    rw [hstack] at hmem
    rcases List.mem_append.mp hmem with h | h
    · exact hw.followed_le entry h
    · rw [List.mem_singleton.mp h]
      exact Nat.zero_le _
  · unfold pending
    rw [← sum_unknown hlt hnew hk]
    simp only [hstack, List.map_append, List.sum_append, List.map_cons, List.map_nil,
      List.sum_cons, List.sum_nil]
    omega

/-- A walk that has a node to meet has not met as many nodes as the table has. -/
lemma Coherent.length_known_lt (hw : walk.Coherent graph) {id : NodeId} (hlt : id.toNat < graph.size)
    (hnew : id ∉ walk.known) : walk.known.length < graph.size :=
  length_le_size (List.nodup_cons.mpr ⟨hnew, hw.nodup⟩) (List.forall_mem_cons.mpr ⟨hlt, hw.lt_size⟩)

/-- If the walk visits some nodes, returns from all it has entered and then takes up some roots, it has
built a given order. -/
def Builds (graph : Digraph σ τ) (walk : Walk) (ids roots order : List NodeId) : Prop :=
  ∃ fresh : List NodeId, fresh.Nodup ∧
    (∀ id, id ∈ fresh ↔ id.toNat < graph.size ∧ id ∉ walk.known) ∧
    walk.order.toList ++ ((graph.visit fresh ids).order ++
      graph.remaining roots (graph.visit fresh ids).left walk.stack.toList.reverse) = order

variable {ids roots result : List NodeId}

lemma Builds.pass {order : Buffer NodeId} {met met' : KeySet (@Fnv.ofKey NodeId _)}
    {stack : Buffer (NodeId × Nat)} {id : NodeId}
    (h : Builds graph ⟨order, met, stack⟩ [id] roots result)
    (hknown : id ∈ known ⟨order, met, stack⟩) :
    Builds graph ⟨order, met', stack⟩ [] roots result := by
  obtain ⟨fresh, hd, hfresh, heq⟩ := h
  have hnot : id ∉ fresh := fun hmem => ((hfresh id).mp hmem).2 hknown
  refine ⟨fresh, hd, hfresh, ?_⟩
  rwa [graph.visit_cons_of_notMem hnot] at heq

lemma Builds.push {order : Buffer NodeId} {met met' : KeySet (@Fnv.ofKey NodeId _)}
    {stack stack' : Buffer (NodeId × Nat)} {id : NodeId}
    (h : Builds graph ⟨order, met, stack⟩ [id] roots result) (hlt : id.toNat < graph.size)
    (hnew : id ∉ known ⟨order, met, stack⟩)
    (hstack : stack'.toList = stack.toList ++ [(id, 0)]) :
    Builds graph ⟨order, met', stack'⟩ [] roots result := by
  obtain ⟨fresh, hd, hfresh, heq⟩ := h
  have hmem : id ∈ fresh := (hfresh id).mpr ⟨hlt, hnew⟩
  refine ⟨fresh.erase id, hd.erase id, fun other => ?_, ?_⟩
  · have hknown : known ⟨order, met', stack'⟩ = known ⟨order, met, stack⟩ ++ [id] := by
      simp [known, hstack]
    rw [hd.mem_erase_iff, hfresh, hknown, List.mem_append, List.mem_singleton]
    tauto
  · rw [graph.left_visit_cons hmem, graph.order_visit_cons hmem] at heq
    simp only [visit_nil] at heq ⊢
    rw [hstack, List.reverse_append, List.reverse_singleton, List.singleton_append, remaining]
    simpa using heq

/-- A node that was not met before is entered; any other is passed over. -/
lemma enter_pays (hw : walk.Coherent graph) (hsize : graph.size ≤ NodeId.limit) {id : NodeId}
    (hlt : id.toNat < graph.size) (hb : walk.Builds graph [id] roots result) :
    Charged.Pays (walk.enter id) fun after => after.Coherent graph ∧
      after.pending graph = walk.pending graph ∧ after.Builds graph [] roots result := by
  obtain ⟨order, met, stack⟩ := walk
  unfold enter
  apply (KeySet.insert_pays hw.met_orderly id).bind
  rintro ⟨found, met'⟩ ⟨ho, hkeys, hnone, -⟩
  cases found with
  | some other =>
    have hknown : id ∈ known ⟨order, met, stack⟩ := by
      rw [← hw.met_iff]
      by_contra hc
      cases hnone.mpr hc
    have hsame : ∀ other, met'.HasKey other ↔ met.HasKey other := by
      intro other
      rw [hkeys]
      apply or_iff_left_of_imp
      rintro rfl
      exact (hw.met_iff other).mpr hknown
    apply Charged.pays_pure
    exact ⟨⟨hw.order_snug, hw.stack_snug, ho, hw.nodup, hw.lt_size,
      fun other => (hsame other).trans (hw.met_iff other), hw.followed_le⟩, rfl, hb.pass hknown⟩
  | none =>
    have hnew : id ∉ known ⟨order, met, stack⟩ := by
      rw [← hw.met_iff]
      exact hnone.mp rfl
    have hroom : stack.size < NodeId.limit := by
      have hknown := hw.length_known_lt hlt hnew
      simp only [known, List.length_append, List.length_map, Buffer.length_toList] at hknown
      omega
    apply (hw.stack_snug.push_pays hroom (id, 0)).bind
    rintro stack' ⟨hsnug, hdata⟩
    have hstack : stack'.toList = stack.toList ++ [(id, 0)] := by simp [Buffer.toList, hdata]
    obtain ⟨hafter, hsame⟩ := hw.push hlt hnew ho hkeys hsnug hstack
    exact Charged.pays_pure ⟨hafter, hsame, hb.push hlt hnew hstack⟩

section Top

variable {order order' : Buffer NodeId} {met : KeySet (@Fnv.ofKey NodeId _)}
  {stack : Buffer (NodeId × Nat)} {below : List (NodeId × Nat)} {id : NodeId} {followed : Nat}

variable (order met) in
lemma known_setBack (htop : stack.toList = below ++ [(id, followed)]) (next : Nat) :
    known ⟨order, met, stack.setBack (id, next)⟩ = known ⟨order, met, stack⟩ := by
  simp [known, Buffer.toList_setBack htop, htop]

variable (met) in
lemma perm_known_pop (htop : stack.toList = below ++ [(id, followed)])
    (horder : order'.toList = order.toList ++ [id]) :
    (known ⟨order', met, stack.pop.2⟩).Perm (known ⟨order, met, stack⟩) := by
  simp only [known, horder, Buffer.toList_pop htop, htop, List.map_append, List.map_cons, List.map_nil]
  rw [List.append_assoc]
  exact List.Perm.append_left _ List.perm_append_comm

/-- An edge counts as followed before its destination is met. -/
lemma Coherent.follow (hw : Coherent graph ⟨order, met, stack⟩)
    (htop : stack.toList = below ++ [(id, followed)]) (hlt : followed < graph.degree id) :
    Coherent graph ⟨order, met, stack.setBack (id, followed + 1)⟩ ∧
      pending graph ⟨order, met, stack.setBack (id, followed + 1)⟩ + 1 =
        pending graph ⟨order, met, stack⟩ := by
  have hset := Buffer.toList_setBack htop (id, followed + 1)
  have hsame := known_setBack order met htop (followed + 1)
  refine ⟨⟨hw.order_snug, hw.stack_snug.of_size_le rfl ?_, hw.met_orderly, hsame ▸ hw.nodup,
    hsame ▸ hw.lt_size, hsame ▸ hw.met_iff, fun entry hmem => ?_⟩, ?_⟩
  · simp [Buffer.setBack, Buffer.set, Buffer.size]
  · rw [hset] at hmem
    rcases List.mem_append.mp hmem with h | h
    · exact hw.followed_le entry (by simp [htop, h])
    · rw [List.mem_singleton.mp h]
      exact hlt
  · unfold pending
    simp only [hsame, hset, htop, List.map_append, List.sum_append, List.map_cons, List.map_nil,
      List.sum_cons, List.sum_nil]
    omega

/-- A node is left when all its edges have been followed. -/
lemma Coherent.leave (hw : Coherent graph ⟨order, met, stack⟩)
    (htop : stack.toList = below ++ [(id, followed)]) (hall : followed = graph.degree id)
    (hsnug : order'.Snug) (horder : order'.toList = order.toList ++ [id]) :
    Coherent graph ⟨order', met, stack.pop.2⟩ ∧
      pending graph ⟨order', met, stack.pop.2⟩ + 1 = pending graph ⟨order, met, stack⟩ := by
  have hpop := Buffer.toList_pop htop
  have hperm := perm_known_pop met htop horder
  refine ⟨⟨hsnug, hw.stack_snug.of_size_le rfl ?_, hw.met_orderly, hperm.nodup_iff.mpr hw.nodup,
    fun other h => hw.lt_size other (hperm.mem_iff.mp h),
    fun other => (hw.met_iff other).trans hperm.mem_iff.symm, fun entry hmem => ?_⟩, ?_⟩
  · simp [Buffer.pop, Buffer.size]
  · rw [hpop] at hmem
    exact hw.followed_le entry (by simp [htop, hmem])
  · unfold pending
    simp only [hperm.mem_iff, hpop, htop, List.map_append, List.sum_append, List.map_cons,
      List.map_nil, List.sum_cons, List.sum_nil, hall]
    omega

lemma Builds.follow {dest : NodeId} (h : Builds graph ⟨order, met, stack⟩ [] roots result)
    (htop : stack.toList = below ++ [(id, followed)])
    (hdest : (graph.successors id)[followed]? = some dest) :
    Builds graph ⟨order, met, stack.setBack (id, followed + 1)⟩ [dest] roots result := by
  obtain ⟨fresh, hd, hfresh, heq⟩ := h
  obtain ⟨hlt, hget⟩ := List.getElem?_eq_some_iff.mp hdest
  have hdrop : (graph.successors id).drop followed =
      dest :: (graph.successors id).drop (followed + 1) := by
    rw [List.drop_eq_getElem_cons hlt, hget]
  refine ⟨fresh, hd, by rwa [known_setBack order met htop], ?_⟩
  rw [visit_nil, htop, List.reverse_append, List.reverse_singleton, List.singleton_append, remaining,
    hdrop, order_visit_first, graph.left_visit_first fresh (List.drop _ _)] at heq
  rw [Buffer.toList_setBack htop, List.reverse_append, List.reverse_singleton,
    List.singleton_append, remaining]
  simpa using heq

lemma Builds.leave (h : Builds graph ⟨order, met, stack⟩ [] roots result)
    (htop : stack.toList = below ++ [(id, followed)])
    (hall : (graph.successors id).length ≤ followed) (horder : order'.toList = order.toList ++ [id]) :
    Builds graph ⟨order', met, stack.pop.2⟩ [] roots result := by
  obtain ⟨fresh, hd, hfresh, heq⟩ := h
  refine ⟨fresh, hd, fun other => ?_, ?_⟩
  · rw [hfresh, (perm_known_pop met htop horder).mem_iff]
  · rw [htop, List.reverse_append, List.reverse_singleton, List.singleton_append, remaining,
      List.drop_eq_nil_of_le hall] at heq
    rw [Buffer.toList_pop htop, horder]
    simpa using heq

end Top

lemma Builds.takeUp {root : NodeId} (h : walk.Builds graph [] (root :: roots) result)
    (hnil : walk.stack.toList = []) : walk.Builds graph [root] roots result := by
  obtain ⟨fresh, hd, hfresh, heq⟩ := h
  refine ⟨fresh, hd, hfresh, ?_⟩
  rw [hnil, List.reverse_nil, remaining] at heq ⊢
  rw [visit_nil] at heq
  rwa [List.nil_append, order_visit_first] at heq

/-- Following an edge or leaving a node uses up one step. -/
lemma advance_pays (hg : graph.Closed) (hw : walk.Coherent graph) {id : NodeId} {followed : Nat}
    (htop : walk.stack.back? = some (id, followed)) (hb : walk.Builds graph [] roots result) :
    Charged.Pays (walk.advance graph id followed) fun after => after.Coherent graph ∧
      after.pending graph + 1 = walk.pending graph ∧ after.Builds graph [] roots result := by
  obtain ⟨order, met, stack⟩ := walk
  obtain ⟨below, hbelow⟩ : ∃ below, stack.toList = below ++ [(id, followed)] := by
    obtain ⟨below, h⟩ := Array.back?_eq_some_iff.mp htop
    exact ⟨below.toList, by rw [Buffer.toList, h, Array.toList_push]⟩
  have hentry : (id, followed) ∈ stack.toList := by simp [hbelow]
  have hlt : id.toNat < graph.size :=
    hw.lt_size id (List.mem_append_right _ (List.mem_map_of_mem hentry))
  obtain ⟨node, hn⟩ : ∃ node, graph.nodes.data[id.toNat]? = some node :=
    ⟨_, Array.getElem?_eq_getElem hlt⟩
  have hdegree : graph.degree id = node.edges.size := by simp [degree, hn]
  have hsuccessors : graph.successors id = node.edges.toList.map Edge.dest := by
    simp [successors, hn]
  have hnode : graph.node id = .ok node := by simp [Digraph.node, Buffer.fetch, hn]
  unfold advance
  apply (Charged.pays_lift (p := (node = ·)) hnode rfl).bind
  rintro _ rfl
  cases hedge : node.edges.get? followed with
  | some edge =>
    obtain ⟨hlt', -⟩ := Array.getElem?_eq_some_iff.mp hedge
    have hdest : (graph.successors id)[followed]? = some edge.dest := by
      rw [hsuccessors, List.getElem?_map, Buffer.toList, Array.getElem?_toList]
      exact congrArg (Option.map Edge.dest) hedge
    have hadjacent : graph.Adjacent id edge.dest := List.mem_of_getElem? hdest
    obtain ⟨hmid, hless⟩ := hw.follow hbelow (hdegree ▸ hlt')
    apply (enter_pays hmid hg.size_le (hg.lt_size hadjacent) (hb.follow hbelow hdest)).mono
    rintro after ⟨hc, hp, hbuilds⟩
    exact ⟨hc, by omega, hbuilds⟩
  | none =>
    have hle : node.edges.size ≤ followed := Array.getElem?_eq_none_iff.mp hedge
    have hall : followed = graph.degree id :=
      Nat.le_antisymm (hw.followed_le _ hentry) (hdegree ▸ hle)
    have hroom : order.size < NodeId.limit := by
      have hknown := length_le_size hw.nodup hw.lt_size
      have hsize := hg.size_le
      simp only [known, hbelow, List.length_append, List.length_map, Buffer.length_toList,
        List.length_singleton] at hknown
      omega
    apply (hw.order_snug.push_pays hroom id).bind
    rintro order' ⟨hsnug, hdata⟩
    have horder : order'.toList = order.toList ++ [id] := by simp [Buffer.toList, hdata]
    obtain ⟨hafter, hless⟩ := hw.leave hbelow hall hsnug horder
    have hlength : (graph.successors id).length ≤ followed := by
      rw [hsuccessors, List.length_map]
      exact hle
    have hbuilds := hb.leave hbelow hlength horder
    exact Charged.pays_pure ⟨hafter, hless, hbuilds⟩

/-- A walk with steps enough ends with an empty stack. -/
lemma run_pays (hg : graph.Closed) (hw : walk.Coherent graph)
    (hb : walk.Builds graph [] roots result) {steps : Nat} (hs : walk.pending graph < steps) :
    Charged.Pays (run graph steps walk) fun after => after.Coherent graph ∧
      after.stack.toList = [] ∧ after.Builds graph [] roots result := by
  induction steps generalizing walk with
  | zero => omega
  | succ steps ih =>
    unfold run
    cases htop : walk.stack.back? with
    | none =>
      refine Charged.pays_pure ⟨hw, ?_, hb⟩
      simpa [Buffer.back?, Buffer.toList] using htop
    | some entry =>
      apply (advance_pays hg hw htop hb).bind
      rintro after ⟨hc, hp, hbuilds⟩
      exact ih hc hbuilds (by omega)

variable (graph) in
lemma pending_lt (hnil : walk.stack.toList = []) :
    walk.pending graph < graph.walkBound := by
  have hle : (∑ i ∈ Finset.range graph.size, if ⟨i⟩ ∈ walk.known then 0 else graph.degree ⟨i⟩ + 1) ≤
      ∑ i ∈ Finset.range graph.size, (graph.degree ⟨i⟩ + 1) := by
    apply Finset.sum_le_sum
    intro i _
    split <;> omega
  rw [Finset.sum_add_distrib, ← edgeCount_eq, Finset.sum_const, Finset.card_range] at hle
  unfold pending walkBound
  simp only [hnil, List.map_nil, List.sum_nil]
  rw [Nat.nsmul_eq_mul, Nat.mul_one] at hle
  omega

end Walk

/-- Roots are taken up one after the other, each with an empty stack. -/
lemma Walk.runAll_pays {graph : Digraph σ τ} (hg : graph.Closed) {roots : List Nat}
    {result : List NodeId} {walk : Walk} (hlt : ∀ root ∈ roots, root < graph.size)
    (hw : walk.Coherent graph) (hnil : walk.stack.toList = [])
    (hb : walk.Builds graph [] (roots.map NodeId.mk) result) :
    Charged.Pays (roots.foldlM (fun (walk : Walk) root => do
      Walk.run graph graph.walkBound (← walk.enter ⟨root⟩)) walk) fun after =>
        after.order.toList = result := by
  induction roots generalizing walk with
  | nil =>
    obtain ⟨fresh, -, -, heq⟩ := hb
    apply Charged.pays_pure
    simpa [hnil, remaining] using heq
  | cons root roots ih =>
    rw [List.forall_mem_cons] at hlt
    rw [List.foldlM_cons, bind_assoc]
    apply (Walk.enter_pays hw hg.size_le hlt.1 (hb.takeUp hnil)).bind
    rintro entered ⟨hentered, hp, hbuilds⟩
    have hbound := Walk.pending_lt graph hnil
    apply (Walk.run_pays hg hentered hbuilds (by omega)).bind
    rintro left ⟨hleft, hnil', hbuilds'⟩
    exact ih hlt.2 hleft hnil' hbuilds'

/-- The post order is the order in which the recursion emits the nodes. -/
theorem postOrder_pays {graph : Digraph σ τ} (hg : graph.Closed) :
    Charged.Pays graph.postOrder fun order => order.toList = graph.depthFirst := by
  have hroom : graph.size.toUInt64.toNat ≤ NodeId.limit :=
    (Buffer.toNat_toUInt64_of_le_limit hg.size_le).symm ▸ hg.size_le
  unfold postOrder
  apply (Buffer.snug_empty.reserve_pays hroom (Nat.zero_le _)).bind
  rintro order ⟨hsnug, hdata⟩
  have horder : order.toList = [] := by simp [Buffer.toList, hdata, Buffer.empty]
  have hknown : Walk.known { order } = [] := by
    rw [Walk.known, horder]
    rfl
  have hstart : Walk.Coherent graph { order } := by
    refine ⟨hsnug, Buffer.snug_empty, Table.orderly_empty, by simp [hknown], by simp [hknown],
      fun id => ?_, by simp [Buffer.toList]⟩
    rw [hknown, List.mem_nil_iff, iff_false]
    exact Table.not_hasKey_empty id
  have hbuilds : Walk.Builds graph { order } [] graph.handles graph.depthFirst := by
    refine ⟨graph.handles, graph.nodup_handles, fun id => ?_, ?_⟩
    · simp [hknown, mem_handles]
    · rw [visit_nil, horder]
      rfl
  apply (Walk.runAll_pays hg (fun _ => List.mem_range.mp) hstart rfl hbuilds).bind
  exact fun walk hwalk => Charged.pays_pure hwalk

/-- The post order lists each node of the table once. -/
theorem postOrder_ensures {graph : Digraph σ τ} (hg : graph.Closed) :
    Charged.Ensures graph.postOrder fun order => order.toList.Nodup ∧
      ∀ id, id ∈ order.toList ↔ id.toNat < graph.size := by
  apply (postOrder_pays hg).ensures.mono
  rintro order horder
  rw [horder]
  exact ⟨hg.postOrdered.nodup, hg.postOrdered.mem_iff⟩

end Digraph

end PatternAutomata
