import PatternAutomata.Proofs.Construction
import PatternAutomata.Proofs.Forgetting

/-!
# A pattern leaves everything else alone

Whether a pattern is read or rejected, what is built for it comes after the nodes that there were, and
its edges join its own nodes. Of the old nodes nothing changes; only a pattern that is read and added
gives the entry one edge more. What a rejected pattern leaves behind is reached from no old node and
does not accept. As long as no edge is added to it, the next reduction counts nothing there, and leaves
nothing of it if it compacts.
-/

namespace PatternAutomata

namespace Automaton

variable {automaton after flat : Automaton} {ids : NodeId → Prop} {source dest start id : NodeId}
  {symbol : UInt8} {wires : List Wire} {count : Nat}

/-! ## What is added beside the old nodes -/

/-- Nodes have been added at the end of the table, and edges from some of them to others. Nothing else
has changed. -/
structure Annexes (automaton after : Automaton) : Prop where
  entry_eq : after.entry = automaton.entry
  size_le : automaton.size ≤ after.size
  node_eq : ∀ {id node}, automaton.node? id = some node → ∃ node', after.node? id = some node' ∧
    node'.data = node.data ∧ node'.edges.toList = node.edges.toList
  adds_iff : ∀ {source symbol dest}, after.Leads source symbol dest →
    (automaton.Adds after source ↔ automaton.Adds after dest)

/-- Nodes have been added that do not accept, and that change no run from an old node. -/
structure Litters (automaton after : Automaton) : Prop extends Annexes automaton after where
  acceptedAt_eq : ∀ {id}, automaton.Adds after id → after.acceptedAt id = none
  runFrom_eq : ∀ {start : NodeId}, start.toNat < automaton.size →
    ∀ word, after.runFrom start word = automaton.runFrom start word

/-- An edge that consumes nothing has been added from the entry to a node, which counts it. Nothing
else has changed. -/
structure Joins (automaton : Automaton) (start : NodeId) (after : Automaton) : Prop where
  entry_eq : after.entry = automaton.entry
  size_eq : after.size = automaton.size
  node_eq : ∀ {id node}, automaton.node? id = some node → ∃ node', after.node? id = some node' ∧
    node'.data = (if id = start then node.data.addReference else node.data) ∧
    node'.edges.toList = node.edges.toList ++
      if id = automaton.entry then [⟨start, ⟨Transition.epsilon⟩⟩] else []

/-- All that a node carries is shown. -/
lemma data_eq_shown {node : Node State Transition} (h : automaton.node? id = some node) :
    node.data = ⟨automaton.picture.label id, automaton.tokenOf id, automaton.picture.marked id,
      automaton.picture.references id⟩ := by
  simp [picture, tokenOf, h]

section Neat

variable (hneat : Neat automaton.size count wires) (hid : id.toNat < automaton.size)
include hneat hid

lemma Neat.edges_extend : (automaton.picture.extend count wires).edges id = automaton.edgesOf id := by
  have hnone : (wires.filter fun wire => wire.source = id) = [] := by
    rw [List.filter_eq_nil_iff]
    rintro ⟨source, dest, ⟨symbol⟩⟩ hw heq
    have hge := (hneat.within hw).1.1
    rw [show source = id from of_decide_eq_true heq] at hge
    exact absurd hid (Nat.not_lt.mpr hge)
  change automaton.edgesOf id ++ (wires.filter fun wire => wire.source = id).map Wire.edge = _
  rw [hnone, List.map_nil, List.append_nil]

lemma Neat.references_extend :
    (automaton.picture.extend count wires).references id = automaton.picture.references id := by
  have hnone : (wires.countP fun wire => wire.edge.dest = id) = 0 := by
    rw [List.countP_eq_zero]
    intro wire hw heq
    have hge := hneat.fresh wire hw
    rw [of_decide_eq_true heq] at hge
    exact absurd hid (Nat.not_lt.mpr hge)
  change automaton.picture.references id + (wires.countP fun wire => wire.edge.dest = id).toUInt32 = _
  rw [hnone]
  exact UInt32.add_zero _

end Neat

/-- Wires among new nodes leave the old ones alone, and so do the tokens of new nodes. -/
lemma annexes_of_neat (ha : automaton.Settled) (hneat : Neat automaton.size count wires)
    {token : NodeId → UInt32}
    (htoken : ∀ id : NodeId, id.toNat < automaton.size → token id = automaton.tokenOf id)
    (hp : after.picture = { automaton.picture.extend count wires with token }) :
    automaton.Annexes after := by
  have hsize : after.size = automaton.size + count := congrArg Picture.size hp
  have hedges : after.edgesOf = (automaton.picture.extend count wires).edges :=
    congrArg Picture.edges hp
  have htokens : after.tokenOf = token := congrArg Picture.token hp
  refine ⟨congrArg Picture.entry hp, by omega, ?_, ?_⟩
  · intro id node hn
    have hid := lt_size_of_node hn
    have hlt : id.toNat < after.size := by omega
    obtain ⟨node', hn'⟩ := exists_node hlt
    refine ⟨node', hn', ?_, ?_⟩
    · have hlabel : (automaton.picture.extend count wires).label id = automaton.picture.label id :=
        if_neg fun hnew => Nat.not_le.mpr hid hnew.1
      rw [data_eq_shown hn, data_eq_shown hn', htokens, htoken id hid, hp]
      dsimp only
      rw [hlabel, hneat.references_extend hid]
      rfl
    · rw [← edgesOf_eq hn, ← edgesOf_eq hn', hedges, hneat.edges_extend hid]
  · exact adds_iff_of_extend ha hneat hsize hedges

lemma annexes_of_extend (ha : automaton.Settled) (hneat : Neat automaton.size count wires)
    (hp : after.picture = automaton.picture.extend count wires) : automaton.Annexes after :=
  annexes_of_neat ha hneat (fun _ _ => rfl) hp

lemma annexes_of_gain (ha : automaton.Settled) {regex : Regex} {token : UInt32}
    (hp : after.picture = automaton.picture.gain regex token []) : automaton.Annexes after := by
  unfold Picture.gain at hp
  rw [List.append_nil] at hp
  refine annexes_of_neat ha (neat_wiring _ regex) (fun id hid => ?_) hp
  apply Function.update_of_ne
  rintro rfl
  exact absurd hid (Nat.not_lt.mpr (regex.covers_exitAt automaton.size).1)

namespace Annexes

variable (h : automaton.Annexes after)
include h

lemma edgesOf_eq (hid : id.toNat < automaton.size) : after.edgesOf id = automaton.edgesOf id := by
  obtain ⟨node, hn⟩ := exists_node hid
  obtain ⟨node', hn', -, hedges⟩ := h.node_eq hn
  rw [Automaton.edgesOf_eq hn, Automaton.edgesOf_eq hn', hedges]

lemma tokenOf_eq (hid : id.toNat < automaton.size) : after.tokenOf id = automaton.tokenOf id := by
  obtain ⟨node, hn⟩ := exists_node hid
  obtain ⟨node', hn', hdata, -⟩ := h.node_eq hn
  rw [Automaton.tokenOf_eq hn, Automaton.tokenOf_eq hn', hdata]

/-- Old nodes lead to old nodes, as before. -/
lemma embeds (ha : automaton.Settled) :
    Embeds (fun id => id.toNat < automaton.size) (fun id => id) automaton after where
  closed _ _ he := ha.dest_lt he
  edgesOf_eq hid := (h.edgesOf_eq hid).trans (List.map_id' _).symm
  tokenOf_eq hid := h.tokenOf_eq hid

lemma litters (ha : automaton.Settled)
    (htoken : ∀ {id}, automaton.Adds after id → after.acceptedAt id = none) :
    automaton.Litters after :=
  ⟨h, htoken, (h.embeds ha).runFrom_eq⟩

end Annexes

lemma joins_of_extends
    (hx : automaton.Extends 0 [.silent automaton.entry start] after) : automaton.Joins start after := by
  have hp := hx.picture_eq
  refine ⟨congrArg Picture.entry hp, hx.size_eq, ?_⟩
  intro id node hn
  have hlt : id.toNat < after.size := hx.size_eq ▸ lt_size_of_node hn
  obtain ⟨node', hn'⟩ := exists_node hlt
  refine ⟨node', hn', ?_, ?_⟩
  · have hlabel : after.picture.label id = automaton.picture.label id := by
      rw [hp]
      exact if_neg fun hnew => absurd hnew.2 (Nat.not_lt.mpr hnew.1)
    have htoken : after.tokenOf = automaton.tokenOf := congrArg Picture.token hp
    have hmarked : after.picture.marked = automaton.picture.marked := by
      rw [hp]
      rfl
    have hcount : after.picture.references id =
        automaton.picture.references id + if id = start then 1 else 0 := by
      rw [hp]
      change automaton.picture.references id + (List.countP _ [Wire.silent _ start]).toUInt32 = _
      by_cases hid : id = start
      · simp [Wire.silent, hid]
      · simp [Wire.silent, hid, Ne.symm hid]
    rw [data_eq_shown hn, data_eq_shown hn', hlabel, htoken, hmarked, hcount]
    split
    · rfl
    · rw [UInt32.add_zero]
  · have hedges : after.edgesOf id = automaton.edgesOf id ++ _ :=
      congrFun (congrArg Picture.edges hp) id
    rw [← edgesOf_eq hn, ← edgesOf_eq hn', hedges]
    by_cases hid : id = automaton.entry
    · simp [Wire.silent, hid]
    · simp [Wire.silent, hid, Ne.symm hid]

/-! ## Nodes to which nothing leads -/

/-- Neither the entry, which is a node, nor any edge from elsewhere leads to some nodes. -/
structure Secluded (automaton : Automaton) (ids : NodeId → Prop) : Prop where
  entry_lt : automaton.entry.toNat < automaton.size
  not_entry : ¬ ids automaton.entry
  lt_size : ∀ {id}, ids id → id.toNat < automaton.size
  closed : ∀ {source symbol dest}, automaton.Leads source symbol dest → ids dest → ids source

lemma Annexes.secluded (h : automaton.Annexes after)
    (hentry : automaton.entry.toNat < automaton.size) : after.Secluded (automaton.Adds after) where
  entry_lt := h.entry_eq ▸ Nat.lt_of_lt_of_le hentry h.size_le
  not_entry hadds := Nat.not_lt.mpr hadds.1 (h.entry_eq ▸ hentry)
  lt_size hadds := hadds.2
  closed hl := (h.adds_iff hl).mpr

namespace Secluded

variable (hs : automaton.Secluded ids)
include hs

/-- New nodes do not lead to old ones. -/
lemma annex (h : automaton.Annexes after) : after.Secluded ids where
  entry_lt := h.entry_eq ▸ Nat.lt_of_lt_of_le hs.entry_lt h.size_le
  not_entry := h.entry_eq ▸ hs.not_entry
  lt_size hid := Nat.lt_of_lt_of_le (hs.lt_size hid) h.size_le
  closed {source symbol dest} hl hdest := by
    have hold : source.toNat < automaton.size := by
      by_contra hge
      have hadds := (h.adds_iff hl).mp ⟨Nat.not_lt.mp hge, lt_size_of_edge hl⟩
      exact absurd (hs.lt_size hdest) (Nat.not_lt.mpr hadds.1)
    unfold Leads at hl
    rw [h.edgesOf_eq hold] at hl
    exact hs.closed hl hdest

lemma link (hx : automaton.Extends 0 [⟨source, ⟨dest, ⟨symbol⟩⟩⟩] after)
    (hids : ids dest → ids source) : after.Secluded ids := by
  have hsize : after.size = automaton.size := hx.size_eq
  have hentry : after.entry = automaton.entry := congrArg Picture.entry hx.picture_eq
  refine ⟨hsize ▸ hentry ▸ hs.entry_lt, hentry ▸ hs.not_entry, fun hid => hsize ▸ hs.lt_size hid, ?_⟩
  intro from' byte to' hl hto
  rcases (leads_extend (congrArg Picture.edges hx.picture_eq)).mp hl with hl | hw
  · exact hs.closed hl hto
  · cases List.mem_singleton.mp hw
    exact hids hto

lemma closed_silent (hsilent : Silent automaton.Leads source dest) (hdest : ids dest) :
    ids source := by
  induction hsilent with
  | refl => exact hdest
  | tail _ hstep ih => exact ih (hs.closed hstep hdest)

/-- Flattening takes over edges of nodes that were reached, so nothing new is reached. -/
lemma not_of_reached (hf : automaton.Flattened flat) (hflat : ∀ id, flat.Flat id)
    (hr : flat.Reached id) : ¬ ids id := by
  induction hr with
  | refl =>
    rw [hf.entry_eq]
    exact hs.not_entry
  | tail _ hstep ih =>
    obtain ⟨⟨dest, ⟨symbol⟩⟩, he, -, rfl⟩ := hstep
    obtain ⟨-, member, hsilent, hl⟩ := (hf.leads_iff hflat _ symbol dest).mp he
    exact fun hdest => ih (hs.closed_silent hsilent (hs.closed hl hdest))

lemma exists_dead (hf : automaton.Flattened flat) (hflat : ∀ id, flat.Flat id)
    (hswept : Swept flat after) (hid : ids id) :
    ∃ node, after.node? id = some node ∧ node.data.isDead = true := by
  have hlt : id.toNat < after.size := by
    rw [hswept.size_eq, hf.size_eq]
    exact hs.lt_size hid
  have hzero : flat.demand id = 0 := Nat.eq_zero_of_not_pos fun hpos =>
    hs.not_of_reached hf hflat (demand_pos_iff.mp hpos) hid
  have hcount := hswept.references_eq id
  rw [hzero] at hcount
  obtain ⟨node, hn⟩ := exists_node hlt
  refine ⟨node, hn, ?_⟩
  rw [data_eq_shown hn]
  exact decide_eq_true hcount

end Secluded

end Automaton

namespace Workspace

variable {workspace after later : Workspace} {ids : NodeId → Prop} {token : UInt32}
  {pattern : String} {compiled : Compiled}

/-! ## What a pattern adds -/

lemma addFragmentOf_annexes (hr : workspace.Regular) (token : UInt32) (pattern : String) :
    WithinLimits (workspace.addFragmentOf token pattern) fun (compiled, built) =>
      workspace.automaton.Annexes built.automaton ∧
      match compiled.result with
      | .ok start => workspace.automaton.Adds built.automaton start
      | .error _ => workspace.automaton.Litters built.automaton := by
  have hs := hr.settled
  unfold addFragmentOf
  cases hread : readPattern workspace.config.chosenNestLimit token pattern with
  | error rejection =>
    apply (edit_withinLimits (Automaton.addFragmentOf_ensures_of_error hread
      (Automaton.assembleAll_settled hs _))).mono
    rintro ⟨compiled, built⟩ ⟨-, hresult, -, hp⟩
    have hannexes := Automaton.annexes_of_extend hs (Automaton.neat_wiringAll _ _) hp
    have htokens : built.automaton.tokenOf = workspace.automaton.tokenOf := congrArg Picture.token hp
    dsimp only
    rw [hresult]
    refine ⟨hannexes, hannexes.litters hs fun hadds => ?_⟩
    rw [Automaton.acceptedAt_eq, htokens, Automaton.tokenOf_of_size_le hadds.1]
    exact if_pos rfl
  | ok regex =>
    apply (edit_withinLimits (Automaton.addFragmentOf_ensures_of_ok hs hread)).mono
    rintro ⟨compiled, built⟩ ⟨-, hresult, hshows⟩
    dsimp only
    rw [hresult]
    exact ⟨Automaton.annexes_of_gain hs hshows.picture_eq,
      hshows.adds_gain_iff.mpr (regex.covers_entryAt _)⟩

lemma addPattern_annexes (hr : workspace.Regular) (token : UInt32) (pattern : String) :
    WithinLimits (workspace.addPattern token pattern) fun (compiled, after) =>
      ∃ built, workspace.addFragmentOf token pattern = .ok (compiled, built) ∧
        workspace.automaton.Annexes built.automaton ∧
        match compiled.result with
        | .ok start => workspace.automaton.Adds built.automaton start ∧
            built.automaton.Extends 0 [.silent built.automaton.entry start] after.automaton
        | .error _ => after = built ∧ workspace.automaton.Litters built.automaton := by
  rw [addPattern_eq, withinLimits_bind]
  apply (addFragmentOf_annexes hr token pattern).and_eq.mono
  rintro ⟨⟨result, message⟩, built⟩ ⟨heq, hannexes, hadds⟩
  cases result with
  | error error =>
    rw [withinLimits_pure]
    exact ⟨built, heq, hannexes, rfl, hadds⟩
  | ok start =>
    have hsound := (hr.addFragmentOf heq).sound (Nat.zero_lt_of_lt hadds.2)
    rw [withinLimits_bind]
    apply (addTransition_withinLimits hsound hsound.wellFormed.entry_lt hadds.2 _).mono
    rintro after ⟨-, hx⟩
    rw [withinLimits_pure]
    exact ⟨built, heq, hannexes, hadds, hx⟩

/-- A pattern that is not looked at adds nothing. -/
lemma addFragmentOf_of_unread (workspace : Workspace)
    (h : token = State.noToken ∨ 0 ∈ pattern.toUTF8.toList) :
    ∃ error message,
      workspace.addFragmentOf token pattern = .ok (⟨.error error, message⟩, workspace) := by
  have hread : ∃ error notice, readPattern workspace.config.chosenNestLimit token pattern =
      .error ⟨error, [], notice⟩ := by
    unfold readPattern
    dsimp only
    split
    · exact ⟨_, _, rfl⟩
    · rename_i htoken
      cases hnul : pattern.toUTF8.toList.findIdx? (fun byte => byte = 0) with
      | some index => exact ⟨_, _, rfl⟩
      | none =>
        rw [List.findIdx?_eq_none_iff] at hnul
        have := hnul 0 (h.resolve_left htoken)
        simp at this
  obtain ⟨error, notice, hread⟩ := hread
  refine ⟨error, ⟨.debug, notice⟩, edit_eq_ok_iff.mpr ⟨rfl, ?_⟩⟩
  unfold Automaton.addFragmentOf
  rw [hread]
  rfl

/-! ## What a rejected pattern leaves behind -/

/-- Requests, other than for a reduction, that add no edge to some nodes except from one of them. -/
def Shunning (ids : NodeId → Prop) (_ : Workspace) : Request → Prop
  | .addTransition source _ dest => ids dest → ids source
  | .reduce => False
  | _ => True

/-- One use of a workspace that adds no edge to some nodes except from one of them. -/
abbrev Shuns (ids : NodeId → Prop) : Workspace → Workspace → Prop := Use (Shunning ids)

/-- After a reduction some nodes are dead if the dead nodes are kept, and otherwise they are not among
the nodes that are left. -/
structure Discards (workspace : Workspace) (ids : NodeId → Prop) (reduced : Workspace) : Prop where
  dead : workspace.config.chosenCompact = false → ∀ id, ids id →
    ∃ node, reduced.automaton.node? id = some node ∧ node.data.isDead = true
  absent : workspace.config.chosenCompact = true → ∃ reports kept,
    workspace.keepingDead.reduce = .ok (reports, kept) ∧
    Automaton.Forgets kept.automaton reduced.automaton ∧
    ∀ id, ids id → id ∉ kept.automaton.liveNodes

/-- Nodes to which nothing leads stay so. -/
lemma Shuns.secluded (h : Shuns ids workspace after) (hr : workspace.Regular)
    (hs : workspace.automaton.Secluded ids) : after.automaton.Secluded ids := by
  cases h with
  | addNode _ heq =>
    obtain ⟨-, -, hx⟩ := (edit_withinLimits (Automaton.addNode_extends hr.settled)).of_eq_ok heq
    have hneat : Automaton.Neat workspace.automaton.size 1 [] := ⟨nofun, List.nodup_nil⟩
    exact hs.annex (Automaton.annexes_of_extend hr.settled hneat hx.picture_eq)
  | addTransition hids heq => exact hs.link (hr.addTransition_extends heq) hids
  | addFragmentOf _ heq => exact hs.annex ((addFragmentOf_annexes hr _ _).of_eq_ok heq).1
  | reduce hnever => exact hnever.elim
  | @addPattern _ _ compiled _ heq =>
    obtain ⟨built, -, hannexes, hrest⟩ := (addPattern_annexes hr _ _).of_eq_ok heq
    have hbuilt := hs.annex hannexes
    obtain ⟨result, message⟩ := compiled
    cases result with
    | error error =>
      rw [hrest.1]
      exact hbuilt
    | ok start =>
      -- the edge leads to a node that has just been added
      refine hbuilt.link hrest.2 fun hid => ?_
      exact absurd (hs.lt_size hid) (Nat.not_lt.mpr hrest.1.1)

lemma secluded_of_shuns (h : Relation.ReflTransGen (Shuns ids) after later) (hr : after.Regular)
    (hs : after.automaton.Secluded ids) : later.Regular ∧ later.automaton.Secluded ids := by
  induction h with
  | refl => exact ⟨hr, hs⟩
  | tail _ hstep ih => exact ⟨Use.regular hstep ih.1, Shuns.secluded hstep ih.1 ih.2⟩

section Reduce

variable (hr : workspace.Regular) (hs : workspace.automaton.Secluded ids)
include hr hs

lemma exists_dead_of_reduce (hkeep : workspace.config.chosenCompact = false) {reports : List Message}
    {reduced : Workspace} (heq : workspace.reduce = .ok (reports, reduced)) {id : NodeId}
    (hid : ids id) : ∃ node, reduced.automaton.node? id = some node ∧ node.data.isDead = true := by
  obtain ⟨-, flat, hflattened, hflat, -, hkept, -⟩ :=
    (reduce_withinLimits (hr.sound_of_reduce heq)).of_eq_ok heq
  exact hs.exists_dead hflattened hflat (hkept hkeep) hid

/-- Reduction counts nothing at nodes to which nothing leads. -/
lemma Regular.reduce_discards :
    WithinLimits workspace.reduce fun (_, reduced) => workspace.Discards ids reduced := by
  have hsound := hr.sound (Nat.zero_lt_of_lt hs.entry_lt)
  apply (reduce_withinLimits hsound).and_eq.mono
  rintro ⟨_, reduced⟩ ⟨heq, -⟩
  refine ⟨fun hkeep id => exists_dead_of_reduce hr hs hkeep heq, fun hcompact => ?_⟩
  -- which nodes are left out shows in the table that keeps the dead ones
  obtain ⟨-, hrun⟩ := edit_eq_ok_iff.mp heq
  rw [hcompact] at hrun
  obtain ⟨reports, kept, arena, hkept, hforgets, -⟩ :=
    (Automaton.reduce_forgets hsound.wellFormed hsound.quiet workspace.arena).of_eq_ok hrun
  have hplain : workspace.keepingDead.reduce =
      .ok (reports, ⟨arena, kept, workspace.keepingDead.config⟩) := edit_eq_ok_iff.mpr ⟨rfl, hkept⟩
  refine ⟨reports, _, hplain, hforgets, fun id hid hlive => ?_⟩
  have hregular : workspace.keepingDead.Regular := ⟨hr.settled, hr.quiet, hr.dense⟩
  obtain ⟨node, hn, hdead⟩ := exists_dead_of_reduce hregular hs rfl hplain hid
  rw [Automaton.data_eq_shown hn] at hdead
  exact (Automaton.mem_liveNodes.mp hlive).2 (of_decide_eq_true hdead)

end Reduce

/-- In any workspace that can arise, the fragment of a pattern touches nothing else, and a pattern that
is added brings one edge more. A rejected pattern changes no run, and the next reduction discards what it
leaves behind, unless an edge from elsewhere is added to it or, in a table without nodes, it has become
the entry. Nothing at all is added for a reserved token or a pattern with a zero byte. -/
theorem Arises.addPattern_contained (h : workspace.Arises) (token : UInt32) (pattern : String) :
    (WithinLimits (workspace.addFragmentOf token pattern) fun (_, built) =>
      workspace.automaton.Annexes built.automaton) ∧
    (WithinLimits (workspace.addPattern token pattern) fun (compiled, after) =>
      ∃ built, workspace.addFragmentOf token pattern = .ok (compiled, built) ∧
        match compiled.result with
        | .ok start => workspace.automaton.Adds built.automaton start ∧
            built.automaton.Joins start after.automaton
        | .error _ => after = built ∧ workspace.automaton.Litters after.automaton ∧
            (workspace.automaton.entry.toNat < workspace.automaton.size → ∀ later,
              Relation.ReflTransGen (Shuns (workspace.automaton.Adds after.automaton)) after later →
              WithinLimits later.reduce fun (_, reduced) =>
                later.Discards (workspace.automaton.Adds after.automaton) reduced)) ∧
    (token = State.noToken ∨ 0 ∈ pattern.toUTF8.toList → ∃ error message,
      workspace.addFragmentOf token pattern = .ok (⟨.error error, message⟩, workspace) ∧
      workspace.addPattern token pattern = .ok (⟨.error error, message⟩, workspace)) := by
  have hr := h.regular
  have hfragment := addFragmentOf_annexes hr token pattern
  refine ⟨hfragment.mono fun _ hbuilt => hbuilt.1, ?_, ?_⟩
  · apply (addPattern_annexes hr token pattern).mono
    rintro ⟨⟨result, message⟩, after⟩ ⟨built, hbuilt, hannexes, hrest⟩
    refine ⟨built, hbuilt, ?_⟩
    cases result with
    | ok start => exact ⟨hrest.1, Automaton.joins_of_extends hrest.2⟩
    | error error =>
      obtain ⟨rfl, hlitters⟩ := hrest
      refine ⟨rfl, hlitters, fun hentry later hlater => ?_⟩
      obtain ⟨hregular, hsecluded⟩ :=
        secluded_of_shuns hlater (hr.addFragmentOf hbuilt) (hannexes.secluded hentry)
      exact hregular.reduce_discards hsecluded
  · intro hunread
    obtain ⟨error, message, hadd⟩ := workspace.addFragmentOf_of_unread hunread
    refine ⟨error, message, hadd, ?_⟩
    rw [addPattern_eq, hadd]
    rfl

/-- The nodes of an alternative that lacks its end are gone after the next reduction. -/
theorem Arises.addPattern_contained_looped :
    ∃ workspace error message after compiled later reports reduced,
      looped = .ok workspace ∧ workspace.Arises ∧
      workspace.addPattern 5 "b(c|d" = .ok (⟨.error error, message⟩, after) ∧
      workspace.automaton.size < after.automaton.size ∧
      workspace.automaton.Litters after.automaton ∧
      after.addPattern 1 "e" = .ok (compiled, later) ∧ later.reduce = .ok (reports, reduced) ∧
      later.Discards (workspace.automaton.Adds after.automaton) reduced := by
  have hok : (looped.toOption.any fun workspace =>
      (workspace.addPattern 5 "b(c|d").toOption.any fun (compiled, after) =>
        !compiled.result.toOption.isSome &&
        decide (workspace.automaton.entry.toNat < workspace.automaton.size) &&
        decide (workspace.automaton.size < after.automaton.size) &&
        (after.addPattern 1 "e").toOption.any fun (_, later) =>
          later.reduce.toOption.any fun _ => true) = true := by decide +kernel
  obtain ⟨workspace, hlooped, hok⟩ := exists_of_any hok
  obtain ⟨⟨⟨result, message⟩, after⟩, hadd, hok⟩ := exists_of_any hok
  simp only [Bool.and_eq_true, decide_eq_true_eq] at hok
  obtain ⟨⟨⟨hrejected, hentry⟩, hsize⟩, hok⟩ := hok
  obtain ⟨⟨compiled, later⟩, hlater, hok⟩ := exists_of_any hok
  obtain ⟨⟨reports, reduced⟩, hreduce, -⟩ := exists_of_any hok
  have harises := arises_looped hlooped
  obtain ⟨built, -, hrest⟩ := (harises.addPattern_contained 5 "b(c|d").2.1.of_eq_ok hadd
  cases result with
  | ok start => cases hrejected
  | error error =>
    obtain ⟨-, hlitters, hdiscards⟩ := hrest
    have hgone := (hdiscards hentry later (.single (.addPattern trivial hlater))).of_eq_ok hreduce
    exact ⟨workspace, error, message, after, compiled, later, reports, reduced, hlooped, harises,
      hadd, hsize, hlitters, hlater, hreduce, hgone⟩

end Workspace

end PatternAutomata
