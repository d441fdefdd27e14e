import PatternAutomata.Proofs.Marking
import PatternAutomata.Proofs.Multiplicity
import PatternAutomata.Proofs.PostOrder

/-!
# Collapsing keeps what every node shows weakly

Collapsing one node gives it the consuming edges and the least token of the nodes that it reaches
without consuming a byte, and takes its other edges away. Every node then shows weakly what it showed
before, whatever has been collapsed earlier and whatever cycles there are. So an automaton all of
whose nodes have been collapsed has exactly the weak edges of the original, each node by itself.
-/

namespace PatternAutomata

namespace Automaton

variable {automaton : Automaton}

/-! ## Known transitions -/

/-- Only the set of known transitions has changed, to one that knows some keys. -/
structure Remembers (automaton : Automaton) (keys : UInt8 × NodeId → Prop) (after : Automaton) :
    Prop where
  wellFormed : after.WellFormed
  picture_eq : after.picture = automaton.picture
  orderly : after.seen.Orderly
  hasKey_iff : ∀ key, after.seen.HasKey key ↔ keys key

lemma remember_ensures (ha : automaton.WellFormed) (ho : automaton.seen.Orderly)
    (edge : Edge Transition) :
    Editing.Ensures (remember edge) automaton fun isNew after =>
      Remembers automaton (fun key => automaton.seen.HasKey key ∨ key = edge.key) after ∧
      (isNew = true ↔ ¬ automaton.seen.HasKey edge.key) := by
  unfold remember
  rw [Editing.ensures_get_bind]
  refine Editing.Ensures.bind (p := fun inserted after => after = automaton ∧
    inserted.2.Orderly ∧
      (∀ key, inserted.2.HasKey key ↔ automaton.seen.HasKey key ∨ key = edge.key) ∧
      (inserted.1.isNone ↔ ¬ automaton.seen.HasKey edge.key)) ?_ ?_
  · rw [Editing.ensures_charged]
    exact (KeySet.insert_ensures ho edge.key).mono fun _ h => ⟨rfl, h⟩
  · rintro ⟨known, seen⟩ after ⟨rfl, hseen, hkeys, hnone⟩
    rw [Editing.ensures_set_bind, Editing.ensures_pure]
    exact ⟨⟨⟨ha.nodes_fit, ha.edges_fit, ha.visited_fit, ha.dest_lt, ha.entry_lt, ha.size_le⟩,
      rfl, hseen, hkeys⟩, hnone⟩

lemma rememberAll_ensures (ha : automaton.WellFormed) (ho : automaton.seen.Orderly)
    (edges : List (Edge Transition)) :
    Editing.Ensures (rememberAll edges) automaton fun _ => Remembers automaton fun key =>
      automaton.seen.HasKey key ∨ ∃ edge ∈ edges, edge.consumes = true ∧ key = edge.key := by
  induction edges generalizing automaton with
  | nil =>
    unfold rememberAll
    rw [Editing.ensures_pure]
    exact ⟨ha, rfl, ho, by simp⟩
  | cons edge rest ih =>
    unfold rememberAll
    by_cases hc : edge.consumes = true
    · have hc' : (!edge.data.isEpsilon) = true := hc
      simp only [hc', if_true]
      refine (remember_ensures ha ho edge).bind fun _ first ⟨hf, _⟩ => ?_
      apply (ih hf.wellFormed hf.orderly).mono
      intro _ after hr
      refine ⟨hr.wellFormed, hr.picture_eq.trans hf.picture_eq, hr.orderly, fun key => ?_⟩
      rw [hr.hasKey_iff, hf.hasKey_iff]
      simp [hc, or_assoc]
    · have hc' : ¬ (!edge.data.isEpsilon) = true := hc
      simp only [hc', if_false, Bool.false_eq_true]
      apply (ih ha ho).mono
      intro _ after hr
      refine ⟨hr.wellFormed, hr.picture_eq, hr.orderly, fun key => ?_⟩
      rw [hr.hasKey_iff]
      simp [hc]

/-- A node has been offered some edges, and has taken over those that consume a byte and were not
known before. -/
structure Adopted (automaton : Automaton) (id : NodeId) (offered : Edge Transition → Prop)
    (new : List (Edge Transition)) (after : Automaton) : Prop where
  wellFormed : after.WellFormed
  picture_eq : ∃ references, after.picture = { automaton.picture with
    edges := Function.update automaton.edgesOf id (automaton.edgesOf id ++ new), references }
  orderly : after.seen.Orderly
  hasKey_iff : ∀ key, after.seen.HasKey key ↔
    automaton.seen.HasKey key ∨ ∃ edge, offered edge ∧ edge.consumes = true ∧ key = edge.key
  mem_iff : ∀ edge, edge ∈ new ↔
    offered edge ∧ edge.consumes = true ∧ ¬ automaton.seen.HasKey edge.key
  nodup : new.Nodup

lemma Adopted.refl (ha : automaton.WellFormed) (ho : automaton.seen.Orderly) (id : NodeId) :
    Adopted automaton id (fun _ => False) [] automaton where
  wellFormed := ha
  picture_eq := ⟨automaton.picture.references, by simp [picture]⟩
  orderly := ho
  hasKey_iff := by simp
  mem_iff := by simp
  nodup := List.nodup_nil

lemma Adopted.congr {id : NodeId} {offered offered' : Edge Transition → Prop}
    {new : List (Edge Transition)} {after : Automaton} (h : Adopted automaton id offered new after)
    (heq : ∀ edge, edge.consumes = true → (offered edge ↔ offered' edge)) :
    Adopted automaton id offered' new after where
  wellFormed := h.wellFormed
  picture_eq := h.picture_eq
  orderly := h.orderly
  hasKey_iff key := by
    rw [h.hasKey_iff]
    refine or_congr_right (exists_congr fun edge => ?_)
    rw [← and_assoc, ← and_assoc, and_congr_left_iff]
    exact fun _ => and_congr_left fun hc => heq edge hc
  mem_iff edge := by
    rw [h.mem_iff]
    constructor
    · exact fun ⟨ho, hc, hk⟩ => ⟨(heq edge hc).mp ho, hc, hk⟩
    · exact fun ⟨ho, hc, hk⟩ => ⟨(heq edge hc).mpr ho, hc, hk⟩
  nodup := h.nodup

lemma Adopted.trans {id : NodeId} {offered offered' : Edge Transition → Prop}
    {new new' : List (Edge Transition)} {after last : Automaton}
    (h : Adopted automaton id offered new after) (h' : Adopted after id offered' new' last) :
    Adopted automaton id (fun edge => offered edge ∨ offered' edge) (new ++ new') last where
  wellFormed := h'.wellFormed
  picture_eq := by
    obtain ⟨references, hp⟩ := h.picture_eq
    obtain ⟨references', hp'⟩ := h'.picture_eq
    have hedges : after.edgesOf = _ := congrArg Picture.edges hp
    refine ⟨references', hp'.trans ?_⟩
    rw [hp, hedges]
    simp
  orderly := h'.orderly
  hasKey_iff key := by
    rw [h'.hasKey_iff, h.hasKey_iff, or_assoc, ← exists_or]
    simp only [or_and_right]
  mem_iff edge := by
    rw [List.mem_append, h.mem_iff, h'.mem_iff, h.hasKey_iff]
    constructor
    · rintro (⟨ho, hc, hk⟩ | ⟨ho, hc, hk⟩)
      · exact ⟨.inl ho, hc, hk⟩
      · exact ⟨.inr ho, hc, fun hs => hk (.inl hs)⟩
    · rintro ⟨ho, hc, hk⟩
      by_cases hfirst : offered edge
      · exact .inl ⟨hfirst, hc, hk⟩
      · refine .inr ⟨ho.resolve_left hfirst, hc, ?_⟩
        rintro (hs | ⟨other, hother, -, heq⟩)
        · exact hk hs
        · exact hfirst (Edge.key_injective heq ▸ hother)
  nodup := by
    refine List.nodup_append'.mpr ⟨h.nodup, h'.nodup, fun edge hnew hnew' => ?_⟩
    obtain ⟨ho, hc, -⟩ := (h.mem_iff edge).mp hnew
    exact ((h'.mem_iff edge).mp hnew').2.2 ((h.hasKey_iff _).mpr (.inr ⟨edge, ho, hc, rfl⟩))

section Offered

variable {id : NodeId} {edge : Edge Transition} {told after : Automaton}

lemma adopted_of_not_consumes (ha : automaton.WellFormed) (ho : automaton.seen.Orderly)
    (hc : ¬ edge.consumes = true) : Adopted automaton id (· = edge) [] automaton := by
  apply (Adopted.refl ha ho id).congr
  intro other he
  simp only [false_iff]
  rintro rfl
  exact hc he

lemma Remembers.adopted_known
    (h : Remembers automaton (fun key => automaton.seen.HasKey key ∨ key = edge.key) told)
    (hc : edge.consumes = true) (hk : automaton.seen.HasKey edge.key) :
    Adopted automaton id (· = edge) [] told where
  wellFormed := h.wellFormed
  picture_eq := ⟨automaton.picture.references, by rw [h.picture_eq]; simp [picture]⟩
  orderly := h.orderly
  hasKey_iff key := by
    rw [h.hasKey_iff]
    simp [hc]
  mem_iff other := by
    simp only [List.not_mem_nil, false_iff]
    rintro ⟨rfl, -, hfresh⟩
    exact hfresh hk
  nodup := List.nodup_nil

lemma Remembers.adopted_new
    (h : Remembers automaton (fun key => automaton.seen.HasKey key ∨ key = edge.key) told)
    (hc : edge.consumes = true) (hk : ¬ automaton.seen.HasKey edge.key)
    (hs : Shows told { told.picture with
      edges := Function.update told.edgesOf id (told.edgesOf id ++ [edge])
      references := Function.update told.picture.references edge.dest
        (told.picture.references edge.dest + 1) } after) :
    Adopted automaton id (· = edge) [edge] after where
  wellFormed := hs.wellFormed
  picture_eq := by
    have hedges : told.edgesOf = automaton.edgesOf := congrArg Picture.edges h.picture_eq
    have hp := hs.picture_eq
    rw [h.picture_eq, hedges] at hp
    exact ⟨_, hp⟩
  orderly := hs.seen_eq ▸ h.orderly
  hasKey_iff key := by
    rw [hs.seen_eq, h.hasKey_iff]
    simp [hc]
  mem_iff other := by
    rw [List.mem_singleton]
    constructor
    · rintro rfl
      exact ⟨rfl, hc, hk⟩
    · exact fun h => h.1
  nodup := List.nodup_singleton edge

end Offered

lemma adopt_ensures (ha : automaton.WellFormed) (ho : automaton.seen.Orderly) {id : NodeId}
    (hid : id.toNat < automaton.size) (edges : List (Edge Transition))
    (hd : ∀ edge ∈ edges, edge.dest.toNat < automaton.size) :
    Editing.Ensures (adopt id edges) automaton fun _ after => ∃ new,
      Adopted automaton id (· ∈ edges) new after := by
  induction edges generalizing automaton with
  | nil =>
    unfold adopt
    rw [Editing.ensures_pure]
    exact ⟨[], (Adopted.refl ha ho id).congr (by simp)⟩
  | cons edge rest ih =>
    -- whatever happens to the first edge, the rest is offered after it
    have hstep : ∀ {first : Automaton} (new : List (Edge Transition)),
        Adopted automaton id (· = edge) new first →
        Editing.Ensures (adopt id rest) first fun _ after => ∃ new,
          Adopted automaton id (· ∈ edge :: rest) new after := by
      intro first new hf
      obtain ⟨references, hp⟩ := hf.picture_eq
      have hsize : first.size = automaton.size := congrArg Picture.size hp
      apply (ih hf.wellFormed hf.orderly (hsize ▸ hid)
        fun e he => hsize ▸ hd e (by simp [he])).mono
      rintro - after ⟨new', hr⟩
      exact ⟨new ++ new', (hf.trans hr).congr (by simp)⟩
    unfold adopt
    by_cases hc : edge.consumes = true
    · have hc' : (!edge.data.isEpsilon) = true := hc
      simp only [hc', if_true]
      apply (remember_ensures ha ho edge).bind
      rintro isNew told ⟨ht, hnew⟩
      have hsize : told.size = automaton.size := congrArg Picture.size ht.picture_eq
      cases isNew with
      | false =>
        have hk : automaton.seen.HasKey edge.key := by simpa using hnew
        simp only [Bool.false_eq_true, if_false]
        exact hstep [] (ht.adopted_known hc hk)
      | true =>
        simp only [if_true]
        apply (addTransition_ensures ht.wellFormed (hsize ▸ hid) (hsize ▸ hd edge (by simp))
          edge.data.symbol).bind
        intro _ first hf
        exact hstep [edge] (ht.adopted_new hc (hnew.mp rfl) hf)
    · have hc' : ¬ (!edge.data.isEpsilon) = true := hc
      simp only [hc', if_false, Bool.false_eq_true]
      exact hstep [] (adopted_of_not_consumes ha ho hc)

/-- Absorbing other nodes takes over their consuming edges that were not known, and finds a token
with the lower bounds that theirs and the given one have in common. -/
lemma absorb_ensures (ha : automaton.WellFormed) (ho : automaton.seen.Orderly) {id : NodeId}
    (hid : id.toNat < automaton.size) (token : UInt32) (members : List NodeId)
    (hm : ∀ member ∈ members, member ≠ id ∧ member.toNat < automaton.size) :
    Editing.Ensures (absorb id token members) automaton fun found after =>
      (∃ new, Adopted automaton id (fun edge => ∃ member ∈ members,
        edge ∈ automaton.edgesOf member) new after) ∧
      ∀ bound, bound ≤ found ↔
        bound ≤ token ∧ ∀ member ∈ members, bound ≤ automaton.tokenOf member := by
  induction members generalizing automaton token with
  | nil =>
    unfold absorb
    rw [Editing.ensures_pure]
    exact ⟨⟨[], (Adopted.refl ha ho id).congr (by simp)⟩, by simp⟩
  | cons member rest ih =>
    obtain ⟨hne, hlt⟩ := hm member (by simp)
    obtain ⟨node, hn⟩ := exists_node hlt
    have hedges : node.edges.toList = automaton.edgesOf member := (edgesOf_eq hn).symm
    have htoken : node.data.token = automaton.tokenOf member := (tokenOf_eq hn).symm
    unfold absorb
    rw [ensures_nodeAt_bind hn, hedges, htoken]
    refine (adopt_ensures ha ho hid _ fun edge he => ha.dest_lt he).bind ?_
    rintro - first ⟨new, hf⟩
    obtain ⟨references, hp⟩ := hf.picture_eq
    have hsize : first.size = automaton.size := congrArg Picture.size hp
    have htokens : first.tokenOf = automaton.tokenOf := congrArg Picture.token hp
    have hsame : ∀ other, other ≠ id → first.edgesOf other = automaton.edgesOf other := by
      intro other hother
      have hall : first.edgesOf = _ := congrArg Picture.edges hp
      exact (congrFun hall other).trans (Function.update_of_ne hother _ _)
    refine (ih hf.wellFormed hf.orderly (hsize ▸ hid) _ fun other h => ?_).mono ?_
    · rw [hsize]
      exact hm other (by simp [h])
    · rintro found after ⟨⟨new', hr⟩, hbound⟩
      refine ⟨⟨new ++ new', (hf.trans hr).congr fun edge _ => ?_⟩, fun bound => ?_⟩
      · constructor
        · rintro (h | ⟨other, hother, h⟩)
          · exact ⟨member, by simp, h⟩
          · exact ⟨other, by simp [hother], hsame other (hm other (by simp [hother])).1 ▸ h⟩
        · rintro ⟨other, hother, h⟩
          rcases List.mem_cons.mp hother with rfl | hother
          · exact .inl h
          · exact .inr ⟨other, hother, (hsame other (hm other (by simp [hother])).1).symm ▸ h⟩
      · rw [hbound, htokens]
        have hleast : bound ≤ (if automaton.tokenOf member < token then automaton.tokenOf member
            else token) ↔ bound ≤ automaton.tokenOf member ∧ bound ≤ token := by
          simp only [UInt32.le_iff_toNat_le, UInt32.lt_iff_toNat_lt]
          split <;> omega
        rw [hleast]
        simp only [List.mem_cons, forall_eq_or_imp]
        tauto

/-! ## Edges taken out -/

lemma withoutEpsilons_spec (edges : Array (Edge Transition)) (position : Nat)
    (hbefore : ∀ i (h : i < edges.size), i < position → edges[i].consumes = true) :
    (withoutEpsilons edges position).1.toList.Perm (edges.toList.filter Edge.consumes) ∧
      ∀ dest ∈ (withoutEpsilons edges position).2, ∃ edge ∈ edges, edge.dest = dest := by
  induction edges, position using withoutEpsilons.induct with
  | case1 edges position h hepsilon _ _ _ ih =>
    rw [withoutEpsilons, dif_pos h, if_pos hepsilon]
    have hlast : edges.size - 1 < edges.size := by omega
    have hpop : (edges.swap position (edges.size - 1)).toList.Perm
        (edges[position] :: (edges.swap position (edges.size - 1)).pop.toList) := by
      have hne : (edges.swap position (edges.size - 1)).toList ≠ [] := by
        rw [← List.length_pos_iff]
        simpa using Nat.lt_of_le_of_lt (Nat.zero_le _) h
      rw [Array.toList_pop]
      have hget : (edges.swap position (edges.size - 1)).toList.getLast hne = edges[position] := by
        simp [List.getLast_eq_getElem]
      conv_lhs => rw [← List.dropLast_append_getLast hne, hget]
      exact List.perm_append_singleton _ _
    have hperm : edges.toList.Perm
        (edges[position] :: (edges.swap position (edges.size - 1)).pop.toList) :=
      (Array.Perm.toList (Array.swap_perm h hlast)).symm.trans hpop
    obtain ⟨hkept, hdests⟩ := ih (by
      intro i hi hlt
      rw [Array.getElem_pop, Array.getElem_swap_of_ne]
      · exact hbefore i (by simp at hi; omega) hlt
      · omega
      · simp at hi
        omega)
    refine ⟨hkept.trans ?_, ?_⟩
    · have hfilter := hperm.filter Edge.consumes
      rw [List.filter_cons_of_neg (by simp [Edge.consumes, hepsilon])] at hfilter
      exact hfilter.symm
    · intro dest hd
      rcases List.mem_cons.mp hd with rfl | hd
      · exact ⟨_, Array.getElem_mem h, rfl⟩
      · obtain ⟨edge, he, rfl⟩ := hdests dest hd
        refine ⟨edge, ?_, rfl⟩
        rw [← Array.mem_toList_iff, hperm.mem_iff]
        exact List.mem_cons_of_mem _ (Array.mem_toList_iff.mpr he)
  | case2 edges position h hconsumes ih =>
    rw [withoutEpsilons, dif_pos h, if_neg hconsumes]
    apply ih
    intro i hi hlt
    rcases Nat.lt_succ_iff_lt_or_eq.mp hlt with hlt | rfl
    · exact hbefore i hi hlt
    · simpa [Edge.consumes] using hconsumes
  | case3 edges position h =>
    rw [withoutEpsilons, dif_neg h]
    refine ⟨?_, by simp⟩
    rw [List.filter_eq_self.mpr]
    intro edge he
    obtain ⟨i, hi, rfl⟩ := List.mem_iff_getElem.mp he
    exact hbefore i hi (by simp at hi; omega)

/-- If every edge consumes a byte, the edges are left as they are. -/
lemma withoutEpsilons_eq_self {edges : Array (Edge Transition)}
    (h : ∀ edge ∈ edges, edge.consumes = true) (position : Nat) :
    (withoutEpsilons edges position).1 = edges := by
  induction edges, position using withoutEpsilons.induct with
  | case1 edges position hlt hepsilon _ _ _ ih =>
    have hconsumes := h _ (Array.getElem_mem hlt)
    simp [Edge.consumes, hepsilon] at hconsumes
  | case2 edges position hlt hconsumes ih =>
    rw [withoutEpsilons, dif_pos hlt, if_neg hconsumes]
    exact ih h
  | case3 edges position hlt => rw [withoutEpsilons, dif_neg hlt]

/-- Whether no edge that leaves a node consumes nothing. -/
def Flat (automaton : Automaton) (id : NodeId) : Prop :=
  ∀ edge ∈ automaton.edgesOf id, edge.consumes = true

lemma release_ensures (ha : automaton.WellFormed) (ids : List NodeId)
    (h : ∀ id ∈ ids, id.toNat < automaton.size) :
    Editing.Ensures (release ids) automaton fun _ after => ∃ references,
      Shows automaton { automaton.picture with references } after := by
  induction ids generalizing automaton with
  | nil =>
    unfold release
    rw [Editing.ensures_pure]
    exact ⟨automaton.picture.references, Shows.refl ha⟩
  | cons id rest ih =>
    unfold release
    refine (setReferences_ensures ha (h id (by simp))
      fun count => if count = 0 then 0 else count - 1).bind fun _ first hf => ?_
    have hsize : first.size = automaton.size := congrArg Picture.size hf.picture_eq
    refine (ih hf.wellFormed fun other ho => hsize ▸ h other (by simp [ho])).mono ?_
    rintro - after ⟨references, hr⟩
    refine ⟨references, hf.trans ⟨hr.wellFormed, hr.picture_eq.trans ?_, hr.seen_eq⟩⟩
    rw [hf.picture_eq]

lemma dropEpsilons_ensures (ha : automaton.WellFormed) {id : NodeId}
    (hid : id.toNat < automaton.size) :
    Editing.Ensures (dropEpsilons id) automaton fun _ after => ∃ kept references,
      kept.Perm ((automaton.edgesOf id).filter Edge.consumes) ∧
      (automaton.Flat id → kept = automaton.edgesOf id) ∧ Shows automaton
        { automaton.picture with edges := Function.update automaton.edgesOf id kept, references }
        after := by
  obtain ⟨node, hn⟩ := exists_node hid
  have hedges : automaton.edgesOf id = node.edges.data.toList := edgesOf_eq hn
  obtain ⟨hperm, hdests⟩ := withoutEpsilons_spec node.edges.data 0 (by simp)
  have hself : automaton.Flat id →
      (withoutEpsilons node.edges.data 0).1.toList = automaton.edgesOf id := by
    intro hflat
    unfold Flat at hflat
    rw [hedges] at hflat ⊢
    rw [withoutEpsilons_eq_self fun edge he => hflat edge (Array.mem_toList_iff.mpr he)]
  cases hw : withoutEpsilons node.edges.data 0 with
  | mk kept dests =>
    rw [hw] at hperm hdests hself
    have hmem : ∀ edge ∈ kept, edge ∈ automaton.edgesOf id := by
      intro edge he
      rw [hedges]
      exact List.mem_of_mem_filter (hperm.mem_iff.mp (Array.mem_toList_iff.mpr he))
    let cut := automaton.withNode id fun node =>
      { node with edges := { node.edges with data := kept } }
    have hcut : cut.WellFormed := by
      refine ha.withNode (fun n h => ?_) fun n h edge he => ?_
      · cases hn.symm.trans h
        refine (ha.edges_fit hn).of_size_le rfl ?_
        have hlen := hperm.length_eq ▸ List.length_filter_le Edge.consumes node.edges.data.toList
        simpa [Buffer.size] using hlen
      · exact ha.dest_lt (hmem edge (Array.mem_toList_iff.mp he))
    have hpicture : cut.picture = { automaton.picture with
        edges := Function.update automaton.edgesOf id kept.toList } := by
      apply (picture_withNode hn).trans
      simp [picture, hn, tokenOf, Buffer.toList, Function.update_eq_self_iff]
    unfold dropEpsilons
    rw [ensures_nodeAt_bind hn, hw]
    dsimp only
    rw [Editing.ensures_get_bind, Editing.ensures_except_bind, graph_modify_eq hid, withinLimits_ok,
      Editing.ensures_set_bind]
    refine (release_ensures hcut dests fun dest hd => ?_).bind ?_
    · obtain ⟨edge, he, rfl⟩ := hdests dest hd
      rw [size_withNode]
      exact ha.dest_lt (hedges ▸ Array.mem_toList_iff.mpr he)
    · rintro - after ⟨references, hr⟩
      rw [Editing.ensures_pure]
      refine ⟨kept.toList, references, hedges ▸ hperm, hself, hr.wellFormed, hr.picture_eq.trans ?_,
        hr.seen_eq⟩
      rw [hpicture]

/-! ## One node collapsed -/

lemma reaches_isEpsilon_iff {source dest : NodeId} :
    automaton.Reaches Transition.isEpsilon source dest ↔ Silent automaton.Leads source dest := by
  have hstep : ∀ id next, (∃ edge ∈ automaton.edgesOf id,
      edge.data.isEpsilon = true ∧ edge.dest = next) ↔ automaton.Leads id Transition.epsilon next := by
    intro id next
    constructor
    · rintro ⟨⟨dest, ⟨symbol⟩⟩, he, hepsilon, rfl⟩
      have : symbol = Transition.epsilon := by simpa [Transition.isEpsilon] using hepsilon
      exact this ▸ he
    · exact fun h => ⟨_, h, by simp [Transition.isEpsilon], rfl⟩
  unfold Reaches Silent
  simp only [hstep]

/-! ### What the walk from a node finds -/

/-- What collapsing a node does first: it marks what the node reaches silently and remembers the
node's own transitions. The node's token is given back. -/
def survey (id : NodeId) : Editing UInt32 := do
  markClosure id
  modify fun automaton => { automaton with seen := automaton.seen.clear }
  let node ← nodeAt id
  rememberAll node.edges.toList
  return node.data.token

/-- The nodes that a node reaches silently are marked, and its own transitions are known. -/
structure Surveyed (automaton : Automaton) (id : NodeId) (members : List NodeId)
    (after : Automaton) : Prop where
  wellFormed : after.WellFormed
  orderly : after.seen.Orderly
  picture_eq : after.picture = automaton.picture.mark (id :: members)
  nodup : (id :: members).Nodup
  mem_members : ∀ member, member ∈ id :: members ↔ Silent automaton.Leads id member
  hasKey_iff : ∀ edge, edge.consumes = true →
    (after.seen.HasKey edge.key ↔ edge ∈ automaton.edgesOf id)

lemma survey_ensures (ha : automaton.WellFormed) (hq : automaton.picture.Quiet) {id : NodeId}
    (hid : id.toNat < automaton.size) : Editing.Ensures (survey id) automaton fun token after =>
      token = automaton.tokenOf id ∧ ∃ members, Surveyed automaton id members after := by
  unfold survey
  apply (markClosure_ensures ha hq hid).bind
  rintro - walked ⟨ids, hw, hnodup, hhead, hids⟩
  obtain ⟨members, rfl⟩ : ∃ members, ids = id :: members := by
    cases ids with
    | nil => cases hhead
    | cons first members => exact ⟨members, by simpa using hhead⟩
  rw [Editing.ensures_modify_bind]
  -- nothing is known yet, and all else is as the walk has left it
  have hcleared : WellFormed { walked with seen := walked.seen.clear } :=
    ⟨hw.wellFormed.nodes_fit, hw.wellFormed.edges_fit, hw.wellFormed.visited_fit,
      hw.wellFormed.dest_lt, hw.wellFormed.entry_lt, hw.wellFormed.size_le⟩
  have hpicture : picture { walked with seen := walked.seen.clear } =
      automaton.picture.mark (id :: members) := hw.picture_eq
  generalize hc : ({ walked with seen := walked.seen.clear } : Automaton) = cleared at *
  have hempty : ∀ key, ¬ cleared.seen.HasKey key := by
    intro key
    rw [← hc]
    exact Table.not_hasKey_clear _ _
  have horderly : cleared.seen.Orderly := by
    rw [← hc]
    exact Table.orderly_clear _
  have hsize : cleared.size = automaton.size := congrArg Picture.size hpicture
  obtain ⟨node, hn⟩ := exists_node (show id.toNat < cleared.size from hsize ▸ hid)
  have hedges : node.edges.toList = automaton.edgesOf id :=
    (edgesOf_eq hn).symm.trans (congrFun (congrArg Picture.edges hpicture) id)
  rw [ensures_nodeAt_bind hn, hedges]
  apply (rememberAll_ensures hcleared horderly (automaton.edgesOf id)).bind
  intro _ told ht
  rw [Editing.ensures_pure]
  refine ⟨(tokenOf_eq hn).symm.trans (congrFun (congrArg Picture.token hpicture) id), members,
    ht.wellFormed, ht.orderly, ht.picture_eq.trans hpicture, hnodup, ?_, ?_⟩
  · intro member
    rw [hids, reaches_isEpsilon_iff]
  · intro edge he
    rw [ht.hasKey_iff]
    constructor
    · rintro (h | ⟨other, hother, -, heq⟩)
      · exact absurd h (hempty _)
      · exact Edge.key_injective heq ▸ hother
    · exact fun h => .inr ⟨edge, h, he, rfl⟩

/-- What collapsing a node does before it takes edges out of it. -/
def gather (id : NodeId) : Editing Unit := do
  let token ← survey id
  let token ← absorb id token (← get).visited.toList.tail
  modifyState id fun state => { state with token }

lemma collapse_eq (id : NodeId) :
    collapse id = gather id >>= fun _ => clearMarks >>= fun _ => dropEpsilons id := by
  simp only [collapse, gather, survey, bind_assoc, pure_bind]

/-- A node has taken over new edges and a token from the nodes that it reaches silently, which are
still marked. -/
structure Gathered (automaton : Automaton) (id : NodeId) (members : List NodeId)
    (new : List (Edge Transition)) (token : UInt32) (after : Automaton) : Prop where
  wellFormed : after.WellFormed
  mem_members : ∀ member, member ∈ id :: members ↔ Silent automaton.Leads id member
  mem_new : ∀ edge, edge ∈ new ↔ (∃ member ∈ members, edge ∈ automaton.edgesOf member) ∧
    edge.consumes = true ∧ edge ∉ automaton.edgesOf id
  nodup : new.Nodup
  le_token_iff : ∀ bound, bound ≤ token ↔
    bound ≤ automaton.tokenOf id ∧ ∀ member ∈ members, bound ≤ automaton.tokenOf member
  picture_eq : ∃ references, after.picture = { automaton.picture with
    agenda := id :: members
    edges := Function.update automaton.edgesOf id (automaton.edgesOf id ++ new)
    token := Function.update automaton.tokenOf id token
    marked := fun other => decide (other ∈ id :: members)
    references }

lemma gather_ensures (ha : automaton.WellFormed) (hq : automaton.picture.Quiet) {id : NodeId}
    (hid : id.toNat < automaton.size) : Editing.Ensures (gather id) automaton fun _ after =>
      ∃ members new token, Gathered automaton id members new token after := by
  unfold gather
  apply (survey_ensures ha hq hid).bind
  rintro _ told ⟨rfl, members, ht⟩
  rw [Editing.ensures_get_bind]
  have hsize : told.size = automaton.size := congrArg Picture.size ht.picture_eq
  have hedges : told.edgesOf = automaton.edgesOf := congrArg Picture.edges ht.picture_eq
  have htokens : told.tokenOf = automaton.tokenOf := congrArg Picture.token ht.picture_eq
  have hagenda : told.visited.toList = automaton.picture.agenda ++ id :: members :=
    congrArg Picture.agenda ht.picture_eq
  rw [hagenda, hq.agenda_eq, List.nil_append, List.tail_cons]
  have hmembers : ∀ member ∈ members, member ≠ id ∧ member.toNat < told.size := by
    intro member h
    refine ⟨?_, ?_⟩
    · rintro rfl
      exact (List.nodup_cons.mp ht.nodup).1 h
    · rw [hsize]
      refine (reaches_isEpsilon_iff.mpr ?_).lt_size ha.inRange hid
      exact (ht.mem_members member).mp (List.mem_cons_of_mem _ h)
  apply (absorb_ensures ht.wellFormed ht.orderly (hsize ▸ hid) _ members hmembers).bind
  rintro token fed ⟨⟨new, hf⟩, hbound⟩
  obtain ⟨references, hp⟩ := hf.picture_eq
  have hsize' : fed.size = automaton.size := (congrArg Picture.size hp).trans hsize
  apply (setToken_ensures hf.wellFormed (hsize' ▸ hid) token).mono
  intro _ after hs
  refine ⟨members, new, token, hs.wellFormed, ht.mem_members, fun edge => ?_, hf.nodup,
    fun bound => ?_, references, ?_⟩
  · rw [hf.mem_iff, hedges]
    exact and_congr_right fun _ => and_congr_right fun he => not_congr (ht.hasKey_iff edge he)
  · rw [hbound, htokens]
  · have htokens' : fed.tokenOf = automaton.tokenOf := (congrArg Picture.token hp).trans htokens
    rw [hs.picture_eq, hp, ht.picture_eq, hedges, htokens']
    simp [Picture.mark, hq.agenda_eq, hq.marked_eq]

/-! ### Edges that consume nothing -/

/-- One node has become what it showed weakly; the others are as they were. -/
structure Collapsed (automaton : Automaton) (id : NodeId) (after : Automaton) : Prop where
  wellFormed : after.WellFormed
  quiet : after.picture.Quiet
  size_eq : after.size = automaton.size
  entry_eq : after.entry = automaton.entry
  edgesOf_eq : ∀ other, other ≠ id → after.edgesOf other = automaton.edgesOf other
  tokenOf_eq : ∀ other, other ≠ id → after.tokenOf other = automaton.tokenOf other
  leads_iff : ∀ symbol dest, after.Leads id symbol dest ↔ Weak automaton.Leads id symbol dest
  le_tokenOf_iff : ∀ bound, bound ≤ after.tokenOf id ↔
    ∀ member, Silent automaton.Leads id member → bound ≤ automaton.tokenOf member
  keeps : automaton.Keeps after id

/-- Dropping edges that consume nothing leaves a node its own edges and what it took over. -/
lemma Gathered.keeps {id : NodeId} {members : List NodeId} {new : List (Edge Transition)}
    {token : UInt32} {gathered after : Automaton}
    (h : Gathered automaton id members new token gathered)
    (hkept : (after.edgesOf id).Perm ((automaton.edgesOf id ++ new).filter Edge.consumes)) :
    automaton.Keeps after id := by
  intro symbol dest hs
  have hcount : after.multiplicity id symbol dest = automaton.multiplicity id symbol dest +
      (new.map Edge.key).count (symbol, dest) := by
    unfold multiplicity
    rw [(hkept.map Edge.key).count_eq, count_consuming _ hs, List.map_append, List.count_append]
  have hnew := List.nodup_iff_count_le_one.mp (h.nodup.map Edge.key_injective) (symbol, dest)
  by_cases hl : automaton.Leads id symbol dest
  · have hold : (symbol, dest) ∉ new.map Edge.key := by
      intro hmem
      obtain ⟨edge, he, hkey⟩ := List.mem_map.mp hmem
      obtain rfl : edge = ⟨dest, ⟨symbol⟩⟩ := Edge.key_injective hkey
      exact ((h.mem_new _).mp he).2.2 hl
    rw [hcount, List.count_eq_zero.mpr hold]
    exact .inl rfl
  · have hnone := Nat.eq_zero_of_not_pos (mt multiplicity_pos_iff.mp hl)
    omega

/-- What a node shows weakly is what the walk from it has gathered, without the edges that consume
nothing. -/
lemma Gathered.collapsed {id : NodeId} {members : List NodeId} {new : List (Edge Transition)}
    {token : UInt32} {gathered after : Automaton}
    (h : Gathered automaton id members new token gathered) (kept : List (Edge Transition))
    (references : NodeId → UInt32) (hw : after.WellFormed)
    (hkept : kept.Perm ((automaton.edgesOf id ++ new).filter Edge.consumes))
    (hp : after.picture = { automaton.picture with
      agenda := []
      edges := Function.update automaton.edgesOf id kept
      token := Function.update automaton.tokenOf id token
      marked := fun _ => false
      references }) : Collapsed automaton id after := by
  have hedges : after.edgesOf = Function.update automaton.edgesOf id kept :=
    congrArg Picture.edges hp
  have htokens : after.tokenOf = Function.update automaton.tokenOf id token :=
    congrArg Picture.token hp
  refine ⟨hw, ⟨congrArg Picture.agenda hp, congrArg Picture.marked hp⟩, congrArg Picture.size hp,
    congrArg Picture.entry hp, fun other hne => ?_, fun other hne => ?_, fun symbol dest => ?_,
    fun bound => ?_, h.keeps ?_⟩
  · rw [hedges, Function.update_of_ne hne]
  · rw [htokens, Function.update_of_ne hne]
  · have hmem : ∀ edge, edge ∈ kept ↔ edge.consumes = true ∧
        ∃ member ∈ id :: members, edge ∈ automaton.edgesOf member := by
      intro edge
      rw [hkept.mem_iff, List.mem_filter, List.mem_append, h.mem_new]
      simp only [List.mem_cons, exists_eq_or_imp]
      by_cases he : edge ∈ automaton.edgesOf id
      · simp [he]
      · simp [he]
        tauto
    unfold Leads Weak
    rw [hedges, Function.update_self, hmem, Edge.consumes_iff]
    simp only [h.mem_members]
    rfl
  · rw [htokens, Function.update_self, h.le_token_iff]
    simp only [← h.mem_members, List.mem_cons, forall_eq_or_imp]
  · rw [hedges, Function.update_self]
    exact hkept

/-- Collapsing a node leaves what it has gathered, without the edges that consume nothing, in order if
there are none of these. -/
lemma collapse_gathers (ha : automaton.WellFormed) (hq : automaton.picture.Quiet) {id : NodeId}
    (hid : id.toNat < automaton.size) : Editing.Ensures (collapse id) automaton fun _ after =>
      ∃ members new token gathered kept references,
        Gathered automaton id members new token gathered ∧ after.WellFormed ∧
        kept.Perm ((automaton.edgesOf id ++ new).filter Edge.consumes) ∧
        ((∀ edge ∈ automaton.edgesOf id ++ new, edge.consumes = true) →
          kept = automaton.edgesOf id ++ new) ∧
        after.picture = { automaton.picture with
          agenda := []
          edges := Function.update automaton.edgesOf id kept
          token := Function.update automaton.tokenOf id token
          marked := fun _ => false
          references } := by
  rw [collapse_eq]
  apply (gather_ensures ha hq hid).bind
  rintro - gathered ⟨members, new, token, hg⟩
  obtain ⟨references, hp⟩ := hg.picture_eq
  have hsize : gathered.size = automaton.size := congrArg Picture.size hp
  refine (clearMarks_ensures hg.wellFormed ?_ ?_).bind fun _ quiet hquiet => ?_
  · intro member h
    rw [hp] at h
    rw [hsize]
    exact (reaches_isEpsilon_iff.mpr ((hg.mem_members member).mp h)).lt_size ha.inRange hid
  · rw [hp]
    simp
  have hpq := hquiet.picture_eq
  rw [hp] at hpq
  have hsize' : quiet.size = automaton.size := congrArg Picture.size hpq
  have hedges : quiet.edgesOf = _ := congrArg Picture.edges hpq
  have hown : quiet.edgesOf id = automaton.edgesOf id ++ new := by
    rw [hedges]
    exact Function.update_self _ _ _
  apply (dropEpsilons_ensures hquiet.wellFormed (hsize' ▸ hid)).mono
  rintro - after ⟨kept, references', hkept, hself, hshows⟩
  unfold Flat at hself
  rw [hown] at hkept hself
  refine ⟨members, new, token, gathered, kept, references', hg, hshows.wellFormed, hkept, hself, ?_⟩
  rw [hshows.picture_eq, hpq, hedges]
  simp

theorem collapse_ensures (ha : automaton.WellFormed) (hq : automaton.picture.Quiet) {id : NodeId}
    (hid : id.toNat < automaton.size) :
    Editing.Ensures (collapse id) automaton fun _ => Collapsed automaton id := by
  apply (collapse_gathers ha hq hid).mono
  rintro - after ⟨members, new, token, gathered, kept, references, hg, hw, hkept, -, hp⟩
  exact hg.collapsed kept references hw hkept hp

/-- A silent path of the original either survives the collapse or meets the collapsed node. -/
lemma Collapsed.silent_or {id source dest : NodeId} {after : Automaton}
    (h : Collapsed automaton id after) (hs : Silent automaton.Leads source dest) :
    Silent after.Leads source dest ∨
      Silent after.Leads source id ∧ Silent automaton.Leads id dest := by
  induction hs using Relation.ReflTransGen.head_induction_on with
  | refl => exact .inl .refl
  | @head source next hstep hrest ih =>
    by_cases hid : source = id
    · subst hid
      exact .inr ⟨.refl, .head hstep hrest⟩
    · have hkeep : after.Leads source Transition.epsilon next := by
        unfold Leads
        rw [h.edgesOf_eq source hid]
        exact hstep
      rcases ih with hsame | ⟨hmeet, hleft⟩
      · exact .inl (.head hkeep hsame)
      · exact .inr ⟨.head hkeep hmeet, hleft⟩

lemma Collapsed.silent_of {id source dest : NodeId} {after : Automaton}
    (h : Collapsed automaton id after) (hs : Silent after.Leads source dest) :
    Silent automaton.Leads source dest := by
  refine Relation.ReflTransGen.mono (fun other next hstep => ?_) _ _ hs
  by_cases hid : other = id
  · subst hid
    exact absurd rfl ((h.leads_iff _ _).mp hstep).1
  · unfold Leads at hstep
    rwa [h.edgesOf_eq other hid] at hstep

/-- Collapsing a node keeps what every node shows weakly. -/
theorem Collapsed.sameWeakly {id : NodeId} {after : Automaton} (h : Collapsed automaton id after) :
    automaton.SameWeakly after where
  weak source symbol dest := by
    constructor
    · rintro ⟨hne, member, hs, hl⟩
      rcases h.silent_or hs with hsame | ⟨hmeet, hleft⟩
      · by_cases hid : member = id
        · subst hid
          exact ⟨hne, member, hsame, (h.leads_iff _ _).mpr ⟨hne, member, .refl, hl⟩⟩
        · refine ⟨hne, member, hsame, ?_⟩
          unfold Leads
          rw [h.edgesOf_eq member hid]
          exact hl
      · exact ⟨hne, id, hmeet, (h.leads_iff _ _).mpr ⟨hne, member, hleft, hl⟩⟩
    · rintro ⟨hne, member, hs, hl⟩
      by_cases hid : member = id
      · subst hid
        obtain ⟨-, other, hs', hl'⟩ := (h.leads_iff _ _).mp hl
        exact ⟨hne, other, (h.silent_of hs).trans hs', hl'⟩
      · unfold Leads at hl
        rw [h.edgesOf_eq member hid] at hl
        exact ⟨hne, member, h.silent_of hs, hl⟩
  rest source bound := by
    constructor
    · intro hb member hs
      by_cases hid : member = id
      · subst hid
        exact (h.le_tokenOf_iff bound).mpr fun other hs' => hb other ((h.silent_of hs).trans hs')
      · rw [h.tokenOf_eq member hid]
        exact hb member (h.silent_of hs)
    · intro hb member hs
      rcases h.silent_or hs with hsame | ⟨hmeet, hleft⟩
      · by_cases hid : member = id
        · subst hid
          exact (h.le_tokenOf_iff bound).mp (hb member hsame) member .refl
        · rw [← h.tokenOf_eq member hid]
          exact hb member hsame
      · exact (h.le_tokenOf_iff bound).mp (hb id hmeet) member hleft

/-! ## All nodes collapsed -/

/-- Every node in turn has been collapsed, among others perhaps. -/
structure Flattened (automaton : Automaton) (after : Automaton) : Prop where
  wellFormed : after.WellFormed
  quiet : after.picture.Quiet
  size_eq : after.size = automaton.size
  entry_eq : after.entry = automaton.entry
  sameWeakly : automaton.SameWeakly after
  keeps : ∀ id, automaton.Keeps after id

lemma Flattened.refl (ha : automaton.WellFormed) (hq : automaton.picture.Quiet) :
    automaton.Flattened automaton :=
  ⟨ha, hq, rfl, rfl, .refl automaton, fun _ => .of_edgesOf_eq rfl⟩

lemma Flattened.trans {after last : Automaton} (h : automaton.Flattened after)
    (h' : after.Flattened last) : automaton.Flattened last :=
  ⟨h'.wellFormed, h'.quiet, h'.size_eq.trans h.size_eq, h'.entry_eq.trans h.entry_eq,
    h.sameWeakly.trans h'.sameWeakly, fun id => (h.keeps id).trans (h'.keeps id)⟩

lemma Collapsed.flattened {id : NodeId} {after : Automaton} (h : Collapsed automaton id after) :
    automaton.Flattened after where
  wellFormed := h.wellFormed
  quiet := h.quiet
  size_eq := h.size_eq
  entry_eq := h.entry_eq
  sameWeakly := h.sameWeakly
  keeps other := by
    by_cases hid : other = id
    · exact hid ▸ h.keeps
    · exact .of_edgesOf_eq (h.edgesOf_eq other hid)

lemma Flattened.nodup {after : Automaton} (h : automaton.Flattened after)
    (hn : ∀ id, ((automaton.edgesOf id).filter Edge.consumes).Nodup) (id : NodeId) :
    ((after.edgesOf id).filter Edge.consumes).Nodup :=
  (h.keeps id).nodup (hn id)

lemma Collapsed.flat {id : NodeId} {after : Automaton} (h : Collapsed automaton id after) :
    after.Flat id := by
  intro edge he
  rw [Edge.consumes_iff]
  exact ((h.leads_iff edge.data.symbol edge.dest).mp he).1

lemma Collapsed.flat_of {id other : NodeId} {after : Automaton} (h : Collapsed automaton id after)
    (hf : automaton.Flat other) : after.Flat other := by
  by_cases hid : other = id
  · exact hid ▸ h.flat
  · unfold Flat
    rw [h.edgesOf_eq other hid]
    exact hf

lemma collapseAll_ensures (ha : automaton.WellFormed) (hq : automaton.picture.Quiet)
    (ids : List NodeId) (hids : ∀ id ∈ ids, id.toNat < automaton.size) :
    Editing.Ensures (collapseAll ids) automaton fun _ after => automaton.Flattened after ∧
      ∀ id, id ∈ ids ∨ automaton.Flat id → after.Flat id := by
  induction ids generalizing automaton with
  | nil =>
    unfold collapseAll
    rw [Editing.ensures_pure]
    exact ⟨.refl ha hq, by simp⟩
  | cons id rest ih =>
    unfold collapseAll
    apply (collapse_ensures ha hq (hids id (by simp))).bind
    intro removed first hf
    refine (ih hf.wellFormed hf.quiet fun other ho => ?_).bind fun more after ⟨hr, hflat⟩ => ?_
    · rw [hf.size_eq]
      exact hids other (by simp [ho])
    · rw [Editing.ensures_pure]
      refine ⟨hf.flattened.trans hr, fun other h => hflat other ?_⟩
      rcases h with h | h
      · rcases List.mem_cons.mp h with rfl | h
        · exact .inr hf.flat
        · exact .inl h
      · exact .inr (hf.flat_of h)

lemma WellFormed.closed (ha : automaton.WellFormed) : automaton.graph.Closed where
  dest_lt := by
    intro node hn edge he
    obtain ⟨i, hi, rfl⟩ := Array.mem_iff_getElem.mp hn
    have hmem : edge ∈ automaton.edgesOf ⟨i⟩ := by
      rw [Automaton.edgesOf_eq (Array.getElem?_eq_getElem hi)]
      exact Array.mem_toList_iff.mpr he
    exact ha.dest_lt hmem
  size_le := ha.size_le

lemma flat_of_size_le {id : NodeId} (h : automaton.size ≤ id.toNat) : automaton.Flat id :=
  fun _ he => absurd (lt_size_of_edge he) (Nat.not_lt.mpr h)

lemma silent_iff_of_flat (hflat : ∀ id, automaton.Flat id) {source dest : NodeId} :
    Silent automaton.Leads source dest ↔ source = dest := by
  constructor
  · intro hs
    rcases Relation.ReflTransGen.cases_head hs with heq | ⟨next, hstep, -⟩
    · exact heq
    · exact absurd rfl (Edge.consumes_iff.mp (hflat _ _ hstep))
  · rintro rfl
    exact .refl

/-- What is left of each node is what it showed weakly, whatever the order of the collapses. -/
theorem Flattened.leads_iff {after : Automaton} (h : automaton.Flattened after)
    (hflat : ∀ id, after.Flat id) (source : NodeId) (symbol : UInt8) (dest : NodeId) :
    after.Leads source symbol dest ↔ Weak automaton.Leads source symbol dest := by
  rw [h.sameWeakly.weak]
  constructor
  · exact fun hl => ⟨Edge.consumes_iff.mp (hflat _ _ hl), source, .refl, hl⟩
  · rintro ⟨-, member, hs, hl⟩
    rwa [(silent_iff_of_flat hflat).mp hs]

theorem Flattened.le_tokenOf_iff {after : Automaton} (h : automaton.Flattened after)
    (hflat : ∀ id, after.Flat id) (source : NodeId) (bound : UInt32) :
    bound ≤ after.tokenOf source ↔
      ∀ member, Silent automaton.Leads source member → bound ≤ automaton.tokenOf member := by
  rw [h.sameWeakly.rest]
  simp only [silent_iff_of_flat hflat, forall_eq']

/-- Collapsing the nodes in post order leaves an automaton all of whose edges consume a byte. -/
theorem collapsePostOrder_ensures (ha : automaton.WellFormed) (hq : automaton.picture.Quiet)
    {order : List NodeId} (horder : ∀ id, id ∈ order ↔ id.toNat < automaton.size) :
    Editing.Ensures (collapseAll order) automaton fun _ after => automaton.Flattened after ∧
      ∀ id, after.Flat id := by
  refine (collapseAll_ensures ha hq order fun id => (horder id).mp).mono ?_
  rintro _ after ⟨h, hflat⟩
  refine ⟨h, fun id => hflat id ?_⟩
  by_cases hlt : id.toNat < automaton.size
  · exact .inl ((horder id).mpr hlt)
  · exact .inr (flat_of_size_le (Nat.not_lt.mp hlt))

end Automaton

end PatternAutomata
