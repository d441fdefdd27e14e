import PatternAutomata.Automaton.Reduction
import PatternAutomata.Proofs.DepthFirst
import PatternAutomata.Proofs.Picture
import Mathlib.Data.List.Nodup
import Mathlib.Data.List.Perm.Subperm

/-!
# Walks mark exactly what they reach

A walk starts at one node and follows the edges that a test admits. It marks each node that it meets
and puts it on the agenda, and it ends when the edges of every node on the agenda have been followed.
At every step the marked nodes are those on the agenda, each of which is there once, so the agenda
cannot outgrow the table. A walk of an automaton without marks ends with an agenda that lists the
reachable nodes once each, the start first, and marks no others.
-/

namespace PatternAutomata

def Picture.mark (picture : Picture) (ids : List NodeId) : Picture :=
  { picture with
    agenda := picture.agenda ++ ids
    marked := fun id => picture.marked id || decide (id ∈ ids) }

/-- Whether no walk is under way. -/
structure Picture.Quiet (picture : Picture) : Prop where
  agenda_eq : picture.agenda = []
  marked_eq : picture.marked = fun _ => false

/-- The agenda lists the marked nodes, each of them once. -/
structure Picture.Agrees (picture : Picture) : Prop where
  nodup : picture.agenda.Nodup
  marked_iff : ∀ id, picture.marked id = true ↔ id ∈ picture.agenda
  lt_size : ∀ id ∈ picture.agenda, id.toNat < picture.size

@[simp] lemma Picture.mark_nil (picture : Picture) : picture.mark [] = picture := by
  simp [Picture.mark]

lemma Picture.mark_append (picture : Picture) (ids ids' : List NodeId) :
    picture.mark (ids ++ ids') = (picture.mark ids).mark ids' := by
  simp [Picture.mark, Bool.or_assoc]

lemma Picture.Quiet.agrees {picture : Picture} (h : picture.Quiet) : picture.Agrees where
  nodup := by simp [h.agenda_eq]
  marked_iff := by simp [h.agenda_eq, h.marked_eq]
  lt_size := by simp [h.agenda_eq]

/-- A node that is not marked is not on the agenda either. -/
lemma Picture.Agrees.mark {picture : Picture} (h : picture.Agrees) {id : NodeId}
    (hlt : id.toNat < picture.size) (hu : picture.marked id = false) :
    (picture.mark [id]).Agrees where
  nodup := by
    have hnew : id ∉ picture.agenda := fun hmem => by simp [(h.marked_iff id).mpr hmem] at hu
    exact List.nodup_append'.mpr ⟨h.nodup, List.nodup_singleton id, by simpa using hnew⟩
  marked_iff other := by simp [Picture.mark, h.marked_iff]
  lt_size other ho := by
    rcases List.mem_append.mp ho with ho | ho
    · exact h.lt_size other ho
    · obtain rfl := List.mem_singleton.mp ho
      exact hlt

namespace Automaton

variable {automaton : Automaton} {admits : Transition → Bool}

/-- Every edge leads to a node, and there are no more nodes than handles. -/
structure InRange (automaton : Automaton) : Prop where
  dest_lt : ∀ {id edge}, edge ∈ automaton.edgesOf id → edge.dest.toNat < automaton.size
  size_le : automaton.size ≤ NodeId.limit

lemma Settled.inRange (ha : automaton.Settled) : automaton.InRange := ⟨ha.dest_lt, ha.size_le⟩

lemma WellFormed.inRange (ha : automaton.WellFormed) : automaton.InRange := ha.settled.inRange

lemma Shows.trans {after last : Automaton} {picture picture' : Picture}
    (h : Shows automaton picture after) (h' : Shows after picture' last) :
    Shows automaton picture' last :=
  ⟨h'.wellFormed, h'.picture_eq, h'.seen_eq.trans h.seen_eq⟩

lemma Shows.refl (ha : automaton.WellFormed) : Shows automaton automaton.picture automaton :=
  ⟨ha, rfl, rfl⟩

lemma length_le_size {ids : List NodeId} (hn : ids.Nodup)
    (hlt : ∀ id ∈ ids, id.toNat < automaton.size) : ids.length ≤ automaton.size :=
  Digraph.length_le_size hn hlt

lemma length_agenda_le (hg : automaton.picture.Agrees) :
    automaton.picture.agenda.length ≤ automaton.size :=
  length_le_size hg.nodup hg.lt_size

/-! ## Marking a node -/

/-- There is room on the agenda for one more node as long as there is a node without a mark. -/
lemma size_visited_lt (hg : automaton.picture.Agrees) {id : NodeId} (h : id.toNat < automaton.size)
    (hu : automaton.picture.marked id = false) : automaton.visited.size < automaton.size := by
  have hlonger := hg.mark h hu
  have hle : (automaton.visited.toList ++ [id]).length ≤ automaton.size :=
    length_le_size hlonger.nodup hlonger.lt_size
  rw [List.length_append, List.length_singleton, Buffer.length_toList] at hle
  exact hle

lemma mark_pays (hr : automaton.size ≤ NodeId.limit) (hg : automaton.picture.Agrees) {id : NodeId}
    (h : id.toNat < automaton.size) (hu : automaton.picture.marked id = false) :
    Editing.Pays (mark id) automaton fun _ => Redraws automaton (automaton.picture.mark [id]) := by
  have hm := redraws_withVisited h true
  unfold mark
  rw [pays_modifyState_bind h]
  generalize (automaton.withNode id fun node =>
    { node with data := { node.data with visited := true } }) = marked at hm
  have hagenda : marked.visited.toList = automaton.visited.toList :=
    congrArg Picture.agenda hm.picture_eq
  have hroom : marked.visited.size < NodeId.limit := by
    have hsize : marked.visited.size = automaton.visited.size := by
      rw [← Buffer.length_toList, hagenda, Buffer.length_toList]
    exact hsize ▸ Nat.lt_of_lt_of_le (size_visited_lt hg h hu) hr
  apply Editing.pays_get_bind
  apply Editing.pays_charged_bind (Buffer.push_pays hroom id)
  rintro visited ⟨hdata, hsize, hcapacity⟩
  refine Editing.pays_set ⟨?_, hm.seen_eq, fun ha => ?_⟩
  · change { marked.picture with agenda := visited.toList } = _
    rw [hm.picture_eq]
    ext1 <;> try rfl
    · simp only [Buffer.toList] at hagenda ⊢
      simp [Picture.mark, picture, hdata, hagenda, Buffer.toList]
    · funext other
      by_cases ho : other = id <;> simp [Picture.mark, ho]
  · have hw := hm.wellFormed ha
    have hfits : visited.Fits := by
      refine ⟨hsize, ?_⟩
      rcases hcapacity with heq | hle
      · exact heq ▸ hw.visited_fit.bytes_le
      · exact Buffer.bytes_le_of_tableRoom hle
    exact ⟨hw.nodes_fit, hw.edges_fit, hfits, hw.dest_lt, hw.entry_lt, hw.size_le⟩

/-! ## Following edges -/

/-- Whether a node reaches another along edges that a test admits. -/
def Reaches (automaton : Automaton) (admits : Transition → Bool) : NodeId → NodeId → Prop :=
  Relation.ReflTransGen fun id next =>
    ∃ edge ∈ automaton.edgesOf id, admits edge.data = true ∧ edge.dest = next

/-- Some nodes have been marked: destinations of admitted edges. No such edge leads to an unmarked
node any more. -/
structure MarkedDests (automaton : Automaton) (admits : Transition → Bool)
    (edges : List (Edge Transition)) (ids : List NodeId) (after : Automaton) : Prop where
  redraws : Redraws automaton (automaton.picture.mark ids) after
  agrees : after.picture.Agrees
  dest : ∀ id ∈ ids, ∃ edge ∈ edges, admits edge.data = true ∧ edge.dest = id
  marked : ∀ edge ∈ edges, admits edge.data = true → after.picture.marked edge.dest = true

/-- An edge that is not admitted, or whose destination is marked, adds nothing. -/
lemma MarkedDests.skip {edge : Edge Transition} {rest : List (Edge Transition)} {ids : List NodeId}
    {after : Automaton} (h : MarkedDests automaton admits rest ids after)
    (hmarked : admits edge.data = true → automaton.picture.marked edge.dest = true) :
    MarkedDests automaton admits (edge :: rest) ids after where
  redraws := h.redraws
  agrees := h.agrees
  dest id hid := by
    obtain ⟨e, hmem, hd⟩ := h.dest id hid
    exact ⟨e, List.mem_cons_of_mem _ hmem, hd⟩
  marked e hmem hadm := by
    rcases List.mem_cons.mp hmem with rfl | hmem
    · rw [h.redraws.picture_eq]
      simp [Picture.mark, hmarked hadm]
    · exact h.marked e hmem hadm

/-- The destination of an admitted edge is marked before those of the others. -/
lemma MarkedDests.cons {edge : Edge Transition} {rest : List (Edge Transition)} {ids : List NodeId}
    {first after : Automaton} (h : MarkedDests first admits rest ids after)
    (hf : Redraws automaton (automaton.picture.mark [edge.dest]) first)
    (hadm : admits edge.data = true) :
    MarkedDests automaton admits (edge :: rest) (edge.dest :: ids) after := by
  have hpicture : after.picture = automaton.picture.mark (edge.dest :: ids) := by
    rw [h.redraws.picture_eq, hf.picture_eq, ← Picture.mark_append]
    rfl
  refine ⟨hf.trans ⟨hpicture, h.redraws.seen_eq, h.redraws.wellFormed⟩, h.agrees, ?_, ?_⟩
  · intro id hid
    rcases List.mem_cons.mp hid with rfl | hid
    · exact ⟨edge, List.mem_cons_self, hadm, rfl⟩
    · obtain ⟨e, hmem, hd⟩ := h.dest id hid
      exact ⟨e, List.mem_cons_of_mem _ hmem, hd⟩
  · intro e hmem hadm'
    rcases List.mem_cons.mp hmem with rfl | hmem
    · rw [hpicture]
      simp [Picture.mark]
    · exact h.marked e hmem hadm'

lemma markDests_pays (hr : automaton.size ≤ NodeId.limit) (hg : automaton.picture.Agrees)
    (edges : List (Edge Transition)) (he : ∀ edge ∈ edges, edge.dest.toNat < automaton.size) :
    Editing.Pays (markDests admits edges) automaton fun _ after => ∃ ids,
      MarkedDests automaton admits edges ids after := by
  induction edges generalizing automaton with
  | nil =>
    unfold markDests
    exact Editing.pays_pure ⟨[], by simpa using Redraws.refl automaton, hg, by simp, by simp⟩
  | cons edge rest ih =>
    have hlt := he edge List.mem_cons_self
    obtain ⟨node, hn⟩ := exists_node hlt
    have hvisited : node.data.visited = automaton.picture.marked edge.dest := by
      simp [picture, hn]
    have hskip : (admits edge.data = true → automaton.picture.marked edge.dest = true) →
        Editing.Pays (markDests admits rest) automaton fun _ after => ∃ ids,
          MarkedDests automaton admits (edge :: rest) ids after := by
      intro hmarked
      apply (ih hr hg fun e he' => he e (List.mem_cons_of_mem _ he')).mono
      rintro - after ⟨ids, hm⟩
      exact ⟨ids, hm.skip hmarked⟩
    unfold markDests
    by_cases hadm : admits edge.data = true
    · by_cases hv : node.data.visited = true
      · simp only [hadm, if_true, pays_nodeAt_bind hn, hv]
        exact hskip fun _ => hvisited ▸ hv
      · have hu : automaton.picture.marked edge.dest = false :=
          hvisited ▸ Bool.eq_false_iff.mpr hv
        simp only [hadm, if_true, pays_nodeAt_bind hn, hv, Bool.not_false]
        apply (mark_pays hr hg hlt hu).bind
        intro _ first hf
        have hsize : first.size = automaton.size := congrArg Picture.size hf.picture_eq
        have hgf : first.picture.Agrees := hf.picture_eq ▸ hg.mark hlt hu
        apply (ih (hsize ▸ hr) hgf fun e he' => hsize ▸ he e (List.mem_cons_of_mem _ he')).mono
        rintro - after ⟨ids, hm⟩
        exact ⟨edge.dest :: ids, hm.cons hf hadm⟩
    · simp only [hadm, if_false, Bool.false_eq_true]
      exact hskip fun h => absurd h hadm

/-! ## Walking -/

/-- How far a walk from a start has come: which nodes are on the agenda, of which the first `next`
have had their edges followed. -/
structure Walked (automaton : Automaton) (admits : Transition → Bool) (start : NodeId)
    (ids : List NodeId) (next : Nat) (now : Automaton) : Prop where
  redraws : Redraws automaton (automaton.picture.mark ids) now
  agrees : now.picture.Agrees
  head : ids.head? = some start
  reaches : ∀ id ∈ ids, automaton.Reaches admits start id
  followed : ∀ i < next, ∀ id, ids[i]? = some id → ∀ edge ∈ automaton.edgesOf id,
    admits edge.data = true → edge.dest ∈ ids
  next_le : next ≤ ids.length

lemma Reaches.lt_size (hr : automaton.InRange) {source dest : NodeId}
    (h : automaton.Reaches admits source dest) (hs : source.toNat < automaton.size) :
    dest.toNat < automaton.size := by
  induction h with
  | refl => exact hs
  | tail _ hstep _ =>
    obtain ⟨edge, he, -, rfl⟩ := hstep
    exact hr.dest_lt he

section Walking

variable {start : NodeId} {ids : List NodeId} {next : Nat} {now : Automaton}

/-- A walk that began without marks has the marked nodes on its agenda. -/
lemma Walked.agenda_eq (hw : Walked automaton admits start ids next now)
    (hq : automaton.picture.Quiet) : now.picture.agenda = ids := by
  rw [hw.redraws.picture_eq]
  simp [Picture.mark, hq.agenda_eq]

/-- A turn follows the edges of the node whose turn it is. -/
lemma Walked.step {id : NodeId} {new : List NodeId} {after : Automaton}
    (hw : Walked automaton admits start ids next now) (hq : automaton.picture.Quiet)
    (hnext : ids[next]? = some id)
    (hm : MarkedDests now admits (automaton.edgesOf id) new after) :
    Walked automaton admits start (ids ++ new) (next + 1) after := by
  have hpicture : after.picture = automaton.picture.mark (ids ++ new) := by
    rw [hm.redraws.picture_eq, hw.redraws.picture_eq, ← Picture.mark_append]
  have hmarked : ∀ other, after.picture.marked other = true → other ∈ ids ++ new := by
    intro other ho
    rw [hpicture] at ho
    simpa [Picture.mark, hq.marked_eq] using ho
  have hlen : next < ids.length := (List.getElem?_eq_some_iff.mp hnext).1
  refine ⟨hw.redraws.trans ⟨hpicture, hm.redraws.seen_eq, hm.redraws.wellFormed⟩, hm.agrees, ?_, ?_,
    ?_, ?_⟩
  · rw [List.head?_append, hw.head]
    rfl
  · intro other ho
    rcases List.mem_append.mp ho with ho | ho
    · exact hw.reaches other ho
    · exact (hw.reaches id (List.mem_of_getElem? hnext)).tail (hm.dest other ho)
  · intro i hi other ho edge he hadm
    rw [List.getElem?_append_left (by omega)] at ho
    rcases Nat.lt_succ_iff_lt_or_eq.mp hi with hi | rfl
    · exact List.mem_append_left _ (hw.followed i hi other ho edge he hadm)
    · cases hnext.symm.trans ho
      exact hmarked _ (hm.marked edge he hadm)
  · rw [List.length_append]
    omega

/-- Each turn follows the edges of one node more, and the agenda cannot outgrow the table. -/
lemma spread_pays (hr : automaton.InRange) (hq : automaton.picture.Quiet)
    (hs : start.toNat < automaton.size) {steps : Nat}
    (hw : Walked automaton admits start ids next now) (hsteps : automaton.size < steps + next) :
    Editing.Pays (spread admits steps next) now fun _ after => ∃ ids,
      Walked automaton admits start ids ids.length after := by
  have hsize : now.size = automaton.size := congrArg Picture.size hw.redraws.picture_eq
  have hagenda := hw.agenda_eq hq
  induction steps generalizing next ids now with
  | zero =>
    have hle := length_agenda_le hw.agrees
    rw [hagenda, hsize] at hle
    have := hw.next_le
    omega
  | succ steps ih =>
    have hedges : now.edgesOf = automaton.edgesOf := congrArg Picture.edges hw.redraws.picture_eq
    have hget : now.visited.get? next = ids[next]? := by
      rw [← hagenda]
      exact Array.getElem?_toList.symm
    unfold spread
    apply Editing.pays_get_bind
    rw [hget]
    cases hnext : ids[next]? with
    | none =>
      have hlen : next = ids.length :=
        Nat.le_antisymm hw.next_le (List.getElem?_eq_none_iff.mp hnext)
      exact Editing.pays_pure ⟨ids, hlen ▸ hw⟩
    | some id =>
      have hlt : id.toNat < automaton.size :=
        (hw.reaches id (List.mem_of_getElem? hnext)).lt_size hr hs
      obtain ⟨node, hn⟩ := exists_node (show id.toNat < now.size from hsize ▸ hlt)
      have hnode : node.edges.toList = automaton.edgesOf id := by
        rw [← edgesOf_eq hn, hedges]
      simp only [pays_nodeAt_bind hn, hnode]
      refine (markDests_pays (hsize ▸ hr.size_le) hw.agrees (automaton.edgesOf id)
        fun edge he => ?_).bind ?_
      · rw [hsize]
        exact hr.dest_lt he
      · rintro - after ⟨new, hm⟩
        have hwalked := hw.step hq hnext hm
        exact ih hwalked (by omega) (congrArg Picture.size hwalked.redraws.picture_eq)
          (hwalked.agenda_eq hq)

end Walking

/-- A walk of an automaton without marks ends, and marks exactly the nodes that it reaches, the start
first. -/
theorem markReachable_pays (hr : automaton.InRange) (hq : automaton.picture.Quiet) {start : NodeId}
    (hs : start.toNat < automaton.size) :
    Editing.Pays (markReachable admits start) automaton fun _ after => ∃ ids,
      Redraws automaton (automaton.picture.mark ids) after ∧ ids.Nodup ∧ ids.head? = some start ∧
      ∀ id, id ∈ ids ↔ automaton.Reaches admits start id := by
  have hu : automaton.picture.marked start = false := by rw [hq.marked_eq]
  unfold markReachable
  apply (mark_pays hr.size_le hq.agrees hs hu).bind
  intro _ first hf
  apply Editing.pays_get_bind
  have hsize : first.graph.size = automaton.size := congrArg Picture.size hf.picture_eq
  have hw : Walked automaton admits start [start] 0 first :=
    ⟨hf, hf.picture_eq ▸ hq.agrees.mark hs hu, rfl, by simp [Reaches, Relation.ReflTransGen.refl],
      by simp, by simp⟩
  apply (spread_pays hr hq hs hw (by omega)).mono
  rintro - after ⟨ids, hw⟩
  refine ⟨ids, hw.redraws, hw.agenda_eq hq ▸ hw.agrees.nodup, hw.head, fun id =>
    ⟨hw.reaches id, fun h => ?_⟩⟩
  induction h with
  | refl => exact List.mem_of_mem_head? (by rw [hw.head]; rfl)
  | tail _ hstep ih =>
    obtain ⟨edge, he, hadm, rfl⟩ := hstep
    obtain ⟨i, hi⟩ := List.mem_iff_getElem?.mp ih
    exact hw.followed i (List.getElem?_eq_some_iff.mp hi).1 _ hi edge he hadm

theorem markReachable_ensures (ha : automaton.WellFormed) (hq : automaton.picture.Quiet)
    {start : NodeId} (hs : start.toNat < automaton.size) :
    Editing.Ensures (markReachable admits start) automaton fun _ after => ∃ ids,
      Shows automaton (automaton.picture.mark ids) after ∧ ids.Nodup ∧ ids.head? = some start ∧
      ∀ id, id ∈ ids ↔ automaton.Reaches admits start id := by
  apply (markReachable_pays ha.inRange hq hs).ensures.mono
  rintro - after ⟨ids, hw, hids⟩
  exact ⟨ids, hw.shows ha, hids⟩

/-- Where no walk is under way, the walk that finds a closure may begin. -/
lemma run_markClosure (hq : automaton.picture.Quiet) (start : NodeId) :
    (markClosure start).run automaton =
      (markReachable Transition.isEpsilon start).run automaton := by
  have hnone : automaton.visited.data.isEmpty = true := by
    simpa [picture, Buffer.toList] using hq.agenda_eq
  unfold markClosure
  rw [Editing.run_get_bind, hnone]
  rfl

lemma markClosure_ensures (ha : automaton.WellFormed) (hq : automaton.picture.Quiet)
    {start : NodeId} (hs : start.toNat < automaton.size) :
    Editing.Ensures (markClosure start) automaton fun _ after => ∃ ids,
      Shows automaton (automaton.picture.mark ids) after ∧ ids.Nodup ∧ ids.head? = some start ∧
      ∀ id, id ∈ ids ↔ automaton.Reaches Transition.isEpsilon start id := by
  unfold Editing.Ensures
  rw [run_markClosure hq]
  exact markReachable_ensures ha hq hs

/-! ## Taking marks off -/

/-- Taking marks off nodes needs no arena. -/
lemma exists_run_unmarkAll (ids : List NodeId) (h : ∀ id ∈ ids, id.toNat < automaton.size) :
    ∃ after, (unmarkAll ids).run automaton = pure ((), after) ∧
      Redraws automaton { automaton.picture with
        marked := fun id => automaton.picture.marked id && !decide (id ∈ ids) } after := by
  induction ids generalizing automaton with
  | nil => exact ⟨automaton, rfl, by simpa using Redraws.refl automaton⟩
  | cons id rest ih =>
    have hf := redraws_withVisited (h id List.mem_cons_self) false
    have hrun := run_modifyState (h id List.mem_cons_self) fun state =>
      { state with visited := false }
    generalize (automaton.withNode id fun node =>
      { node with data := { node.data with visited := false } }) = first at hf hrun
    have hsize : first.size = automaton.size := congrArg Picture.size hf.picture_eq
    obtain ⟨after, hrest, hs⟩ := ih fun other ho => hsize ▸ h other (List.mem_cons_of_mem _ ho)
    refine ⟨after, ?_, hf.trans ⟨hs.picture_eq.trans ?_, hs.seen_eq, hs.wellFormed⟩⟩
    · unfold unmarkAll
      rw [StateT.run_bind, hrun, pure_bind]
      exact hrest
    · rw [hf.picture_eq]
      ext1 <;> try rfl
      funext other
      by_cases ho : other = id <;> simp [ho]

/-- Ending a walk needs no arena, and leaves an automaton without marks. -/
lemma exists_run_clearMarks (h : ∀ id ∈ automaton.picture.agenda, id.toNat < automaton.size)
    (hmarks : ∀ id, automaton.picture.marked id = true → id ∈ automaton.picture.agenda) :
    ∃ after, clearMarks.run automaton = pure ((), after) ∧ Redraws automaton
      { automaton.picture with agenda := [], marked := fun _ => false } after := by
  obtain ⟨last, hrun, hl⟩ := exists_run_unmarkAll automaton.visited.toList h
  refine ⟨{ last with visited := last.visited.clear }, ?_, ?_, hl.seen_eq, fun ha => ?_⟩
  · unfold clearMarks
    rw [Editing.run_get_bind, StateT.run_bind, hrun]
    rfl
  · change { last.picture with agenda := [] } = _
    rw [hl.picture_eq]
    ext1 <;> try rfl
    funext id
    by_cases hm : automaton.picture.marked id = true
    · have hmem : id ∈ automaton.visited.toList := hmarks id hm
      simp [hm, hmem]
    · simp [hm]
  · have hw := hl.wellFormed ha
    have hfits : last.visited.clear.Fits :=
      hw.visited_fit.of_size_le rfl (by simp [Buffer.clear, Buffer.size])
    exact ⟨hw.nodes_fit, hw.edges_fit, hfits, hw.dest_lt, hw.entry_lt, hw.size_le⟩

lemma clearMarks_ensures (ha : automaton.WellFormed)
    (h : ∀ id ∈ automaton.picture.agenda, id.toNat < automaton.size)
    (hmarks : ∀ id, automaton.picture.marked id = true → id ∈ automaton.picture.agenda) :
    Editing.Ensures clearMarks automaton fun _ => Shows automaton
      { automaton.picture with agenda := [], marked := fun _ => false } := by
  obtain ⟨after, hrun, hafter⟩ := exists_run_clearMarks h hmarks
  unfold Editing.Ensures
  rw [hrun, Charged.ensures_pure]
  exact hafter.shows ha

end Automaton

end PatternAutomata
