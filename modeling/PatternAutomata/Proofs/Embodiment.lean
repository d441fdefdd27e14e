import PatternAutomata.Proofs.Fragment
import PatternAutomata.Proofs.Reachable

/-!
# Automata of several patterns

An automaton embodies some patterns if each position of them has a node, in the order of the
positions, and seen weakly the entry and these nodes lead to each other as the positions follow each
other and accept as words end with them. Adding a pattern that is read makes the automaton embody
that pattern as well; one that is rejected adds nodes to which nothing leads. Reduction, which only
makes plain what is shown weakly, keeps what the automaton embodies.
-/

namespace PatternAutomata

namespace Automaton

variable {automaton after : Automaton} {patterns : List (UInt32 × Regex)} {regex : Regex}
  {token : UInt32} {arrive : Nat → Edge Transition} {source dest id : NodeId} {symbol : UInt8}

/-- The nodes of an automaton stand for the positions of patterns. The edges to the node of a position
all equal the one that `arrive` gives; at zero it gives the entry. -/
structure Embodies (automaton : Automaton) (patterns : List (UInt32 × Regex))
    (arrive : Nat → Edge Transition) : Prop where
  arrive_zero : (arrive 0).dest = automaton.entry
  entry_eq : automaton.entry = ⟨0⟩
  letters : Spread 1 (lettersOf patterns) fun j => (arrive j).data.symbol
  increasing : ∀ {i j}, i < j → j ≤ (lettersOf patterns).length →
    (arrive i).dest.toNat < (arrive j).dest.toNat
  lt_size : ∀ {i}, i ≤ (lettersOf patterns).length → (arrive i).dest.toNat < automaton.size
  not_to_entry : ∀ source symbol, ¬ automaton.Leads source symbol automaton.entry
  nodup : ∀ id, ((automaton.edgesOf id).filter Edge.consumes).Nodup
  offers : ∀ {i}, i ≤ (lettersOf patterns).length → ∀ edge,
    (Offers automaton.Leads (arrive i).dest edge ↔ ∃ j, Succeeds patterns i j ∧ arrive j = edge)
  rests : ∀ {i}, i ≤ (lettersOf patterns).length → ∀ bound,
    ((∀ id, Silent automaton.Leads (arrive i).dest id → bound ≤ automaton.tokenOf id) ↔
      ∀ token, Concludes patterns i token → bound ≤ token)

def tokensFor (patterns : List (UInt32 × Regex)) (word : List UInt8) : Set UInt32 :=
  {token | ∃ regex, (token, regex) ∈ patterns ∧ word ∈ regex.language}

/-- The runs of an automaton are given by patterns. -/
structure Speaks (automaton : Automaton) (patterns : List (UInt32 × Regex)) : Prop where
  token_ne : ∀ pattern ∈ patterns, pattern.1 ≠ State.noToken
  run_eq : ∀ word, automaton.run word = least (tokensFor patterns word)

/-! ## An automaton that has its entry only -/

lemma edgesOf_initial (h : automaton.picture = .initial) : automaton.edgesOf = fun _ => [] :=
  congrArg Picture.edges h

lemma not_leads_initial (h : automaton.picture = .initial) :
    ¬ automaton.Leads source symbol dest := by
  unfold Leads
  rw [edgesOf_initial h]
  exact List.not_mem_nil

lemma embodies_initial (h : automaton.picture = .initial) :
    automaton.Embodies [] fun _ => ⟨⟨0⟩, ⟨Transition.epsilon⟩⟩ where
  arrive_zero := (congrArg Picture.entry h).symm
  entry_eq := congrArg Picture.entry h
  letters := nofun
  increasing hlt hle := by
    simp only [lettersOf, List.flatMap_nil, List.length_nil] at hle
    omega
  lt_size _ := by
    rw [show automaton.size = 1 from congrArg Picture.size h]
    exact Nat.one_pos
  not_to_entry _ _ := not_leads_initial h
  nodup id := by
    rw [edgesOf_initial h]
    exact List.nodup_nil
  offers _ edge := by
    constructor
    · rintro ⟨-, id, -, hl⟩
      exact absurd hl (not_leads_initial h)
    · rintro ⟨j, ⟨_, hp, -⟩, -⟩
      cases hp
  rests _ bound := by
    have htoken : automaton.tokenOf = fun _ => State.noToken := congrArg Picture.token h
    rw [htoken]
    constructor
    · rintro - _ ⟨_, hp, -⟩
      cases hp
    · exact fun _ _ _ => le_noToken bound

lemma speaks_initial (h : automaton.picture = .initial) : automaton.Speaks [] where
  token_ne := nofun
  run_eq word := by
    have htoken : automaton.tokenOf = fun _ => State.noToken := congrArg Picture.token h
    have hempty : tokensFor [] word = ∅ := by
      ext token
      simp [tokensFor]
    rw [hempty, run, runFrom, least_eq_none_iff.mpr rfl, least_eq_none_iff,
      Set.eq_empty_iff_forall_notMem]
    rintro _ ⟨hne, id, -, rfl⟩
    rw [htoken] at hne
    exact hne rfl

/-! ## Added wires -/

/-- Wires between the nodes of a stretch of the table, those that consume a byte all different. -/
structure Neat (base count : Nat) (wires : List Wire) : Prop where
  within : ∀ {source symbol dest}, Wired wires source symbol dest →
    (base ≤ source.toNat ∧ source.toNat < base + count) ∧
      (base ≤ dest.toNat ∧ dest.toNat < base + count)
  nodup : (wires.filter fun wire => wire.edge.consumes).Nodup

lemma Neat.fresh {base count : Nat} {wires : List Wire} (h : Neat base count wires) :
    ∀ wire ∈ wires, base ≤ wire.edge.dest.toNat := by
  rintro ⟨source, dest, ⟨symbol⟩⟩ hw
  exact (h.within hw).2.1

lemma wired_append {wires more : List Wire} : Wired (wires ++ more) source symbol dest ↔
    Wired wires source symbol dest ∨ Wired more source symbol dest := List.mem_append

lemma Neat.append {base count count' : Nat} {wires more : List Wire} (h : Neat base count wires)
    (h' : Neat (base + count) count' more) : Neat base (count + count') (wires ++ more) where
  within hw := by
    rcases wired_append.mp hw with hw | hw
    · have := h.within hw
      omega
    · have := h'.within hw
      omega
  nodup := by
    rw [List.filter_append, List.nodup_append']
    refine ⟨h.nodup, h'.nodup, fun wire hw hw' => ?_⟩
    obtain ⟨source, dest, ⟨symbol⟩⟩ := wire
    have := (h.within (List.mem_filter.mp hw).1).1
    have := (h'.within (List.mem_filter.mp hw').1).1
    omega

lemma nodup_wiring (base : Nat) (regex : Regex) :
    ((regex.wiring base).filter fun wire => wire.edge.consumes).Nodup := by
  have hsilent : ∀ source dest, (Wire.silent source dest).edge.consumes = false := fun _ _ => rfl
  have hjoin : ∀ {left right : Regex} {base : Nat},
      ((left.wiring base).filter fun wire => wire.edge.consumes).Nodup →
      ((right.wiring (base + left.nodeCount)).filter fun wire => wire.edge.consumes).Nodup →
      (((left.wiring base) ++ (right.wiring (base + left.nodeCount))).filter
        fun wire => wire.edge.consumes).Nodup := by
    intro left right base hl hr
    exact (Neat.append ⟨fun h => (Regex.isolated base left).covers h, hl⟩
      ⟨fun h => (Regex.isolated _ right).covers h, hr⟩ :
        Neat base (left.nodeCount + right.nodeCount) _).nodup
  induction regex generalizing base with
  | literal byte => exact (List.nodup_singleton _).filter _
  | concat left right hl hr =>
    simp only [Regex.wiring, List.filter_append, List.filter_cons, List.filter_nil, hsilent,
      Bool.false_eq_true, if_false, List.append_nil]
    rw [← List.filter_append]
    exact hjoin (hl _) (hr _)
  | alternate left right hl hr =>
    simp only [Regex.wiring, List.filter_append, List.filter_cons, List.filter_nil, hsilent,
      Bool.false_eq_true, if_false, List.append_nil]
    rw [← List.filter_append]
    exact hjoin (hl _) (hr _)
  | star inner hi =>
    simp only [Regex.wiring, List.filter_append, List.filter_cons, List.filter_nil, hsilent,
      Bool.false_eq_true, if_false, List.append_nil]
    exact hi _

lemma neat_wiring (base : Nat) (regex : Regex) : Neat base regex.nodeCount (regex.wiring base) :=
  ⟨fun h => (Regex.isolated base regex).covers h, nodup_wiring base regex⟩

lemma neat_wiringAll (base : Nat) (regexes : List Regex) :
    Neat base (Regex.nodeCountAll regexes) (Regex.wiringAll base regexes) := by
  induction regexes generalizing base with
  | nil => exact ⟨nofun, List.nodup_nil⟩
  | cons regex rest ih => exact (neat_wiring base regex).append (ih _)

lemma leads_extend {count : Nat} {wires : List Wire}
    (h : after.edgesOf = (automaton.picture.extend count wires).edges) :
    after.Leads source symbol dest ↔
      automaton.Leads source symbol dest ∨ Wired wires source symbol dest := by
  unfold Leads
  rw [h]
  simp only [Picture.extend, List.mem_append, List.mem_map, List.mem_filter, decide_eq_true_iff]
  refine or_congr_right ⟨?_, fun hw => ⟨_, ⟨hw, rfl⟩, rfl⟩⟩
  rintro ⟨⟨other, edge⟩, ⟨hw, rfl⟩, rfl⟩
  exact hw

lemma nodup_extend {count : Nat} {wires : List Wire}
    (h : after.edgesOf = (automaton.picture.extend count wires).edges)
    (hold : ∀ id, ((automaton.edgesOf id).filter Edge.consumes).Nodup)
    (hnew : (wires.filter fun wire => wire.edge.consumes).Nodup)
    (hsource : ∀ wire ∈ wires, wire.edge.consumes = true → automaton.size ≤ wire.source.toNat)
    (id : NodeId) : ((after.edgesOf id).filter Edge.consumes).Nodup := by
  have hsplit : (after.edgesOf id).filter Edge.consumes =
      (automaton.edgesOf id).filter Edge.consumes ++
        ((wires.filter fun wire => wire.edge.consumes).filter fun wire => wire.source = id).map
          Wire.edge := by
    rw [h]
    simp only [Picture.extend, List.filter_append, List.filter_map, List.filter_filter]
    congr 3
    funext wire
    exact Bool.and_comm _ _
  rw [hsplit]
  by_cases hlt : id.toNat < automaton.size
  · have hnone : (wires.filter fun wire => wire.edge.consumes).filter
        (fun wire => wire.source = id) = [] := by
      rw [List.filter_eq_nil_iff]
      intro wire hw
      obtain ⟨hw, hc⟩ := List.mem_filter.mp hw
      have hge := hsource wire hw hc
      rw [decide_eq_true_iff]
      rintro rfl
      omega
    rw [hnone, List.map_nil, List.append_nil]
    exact hold id
  · have hnone : automaton.edgesOf id = [] := by
      rw [List.eq_nil_iff_forall_not_mem]
      exact fun edge he => hlt (lt_size_of_edge he)
    rw [hnone, List.filter_nil, List.nil_append]
    apply (hnew.filter _).map_on
    intro wire hw wire' hw' heq
    obtain ⟨source, edge⟩ := wire
    obtain ⟨source', edge'⟩ := wire'
    have h1 : source = id := of_decide_eq_true (List.mem_filter.mp hw).2
    have h2 : source' = id := of_decide_eq_true (List.mem_filter.mp hw').2
    rw [h1, h2]
    exact congrArg (Wire.mk id) heq

/-! ## Paths from the nodes that there were -/

/-- No path but the empty one comes back to the entry. -/
lemma reads_entry (hno : ∀ source symbol, ¬ automaton.Leads source symbol automaton.entry)
    {word : List UInt8} (h : Reads automaton.Leads source word automaton.entry) :
    source = automaton.entry ∧ word = [] := by
  generalize hl : automaton.entry = last at h
  induction h with
  | here id => exact ⟨rfl, rfl⟩
  | silent hstep _ ih =>
    obtain ⟨rfl, -⟩ := ih hl
    exact absurd (hl ▸ hstep) (hno _ _)
  | consume _ hstep _ ih =>
    obtain ⟨rfl, -⟩ := ih hl
    exact absurd (hl ▸ hstep) (hno _ _)

lemma lt_size_of_reads (ha : automaton.WellFormed) (hs : source.toNat < automaton.size)
    {word : List UInt8} (h : Reads automaton.Leads source word dest) :
    dest.toNat < automaton.size := by
  induction h with
  | here id => exact hs
  | silent hstep _ ih => exact ih (ha.dest_lt hstep)
  | consume _ hstep _ ih => exact ih (ha.dest_lt hstep)

lemma silent_entry_iff (hno : ∀ source symbol, ¬ automaton.Leads source symbol automaton.entry) :
    Silent automaton.Leads source automaton.entry ↔ source = automaton.entry := by
  constructor
  · exact fun h => (reads_entry hno (reads_nil_iff.mpr h)).1
  · rintro rfl
    exact .refl

/-- Whether more edges lead from the nodes of an automaton only out of its entry, without consuming
anything. -/
structure Grows (automaton : Automaton) (wires : List Wire) (next : NodeId → Prop)
    (after : Automaton) : Prop where
  wellFormed : automaton.WellFormed
  not_to_entry : ∀ source symbol, ¬ automaton.Leads source symbol automaton.entry
  leads_iff : ∀ {source symbol dest}, after.Leads source symbol dest ↔
    automaton.Leads source symbol dest ∨ Wired wires source symbol dest ∨
      (source = automaton.entry ∧ symbol = Transition.epsilon ∧ next dest)
  source_ge : ∀ {source symbol dest}, Wired wires source symbol dest →
    automaton.size ≤ source.toNat

namespace Grows

variable {wires : List Wire} {next : NodeId → Prop}

lemma leaves (h : Grows automaton wires next after) :
    Leaves automaton.Leads after.Leads (fun id => id.toNat < automaton.size) automaton.entry
      next := by
  intro source symbol dest hin hl
  rcases h.leads_iff.mp hl with hl | hw | hglue
  · exact .inl ⟨hl, h.wellFormed.dest_lt hl⟩
  · exact absurd hin (Nat.not_lt.mpr (h.source_ge hw))
  · exact .inr hglue

lemma mono (h : Grows automaton wires next after) (source : NodeId) (symbol : UInt8) (dest : NodeId)
    (hl : automaton.Leads source symbol dest) : after.Leads source symbol dest :=
  h.leads_iff.mpr (.inl hl)

lemma leads_entry (h : Grows automaton wires next after) (dest : NodeId) (hn : next dest) :
    after.Leads automaton.entry Transition.epsilon dest :=
  h.leads_iff.mpr (.inr (.inr ⟨rfl, rfl, hn⟩))

/-- A path from a node that there was stays among them, or starts at the entry and goes over to what
was added. -/
lemma reads_iff (h : Grows automaton wires next after) (hs : source.toNat < automaton.size)
    {word : List UInt8} : Reads after.Leads source word dest ↔
      (dest.toNat < automaton.size ∧ Reads automaton.Leads source word dest) ∨
        (source = automaton.entry ∧ ∃ id, next id ∧ Reads after.Leads id word dest) := by
  rw [h.leaves.reads_iff h.mono h.leads_entry hs]
  refine or_congr_right ⟨?_, ?_⟩
  · rintro ⟨before, rest, id, rfl, hbefore, hn, hrest⟩
    obtain ⟨hentry, rfl⟩ := reads_entry h.not_to_entry hbefore
    exact ⟨hentry, id, hn, hrest⟩
  · rintro ⟨rfl, id, hn, hrest⟩
    exact ⟨[], word, id, rfl, .here _, hn, hrest⟩

lemma silent_iff (h : Grows automaton wires next after) (hs : source.toNat < automaton.size) :
    Silent after.Leads source dest ↔
      (dest.toNat < automaton.size ∧ Silent automaton.Leads source dest) ∨
        (source = automaton.entry ∧ ∃ id, next id ∧ Silent after.Leads id dest) := by
  simp only [← reads_nil_iff]
  exact h.reads_iff hs

lemma offers_iff (h : Grows automaton wires next after) (hs : source.toNat < automaton.size)
    {edge : Edge Transition} : Offers after.Leads source edge ↔
      Offers automaton.Leads source edge ∨
        (source = automaton.entry ∧ ∃ id, next id ∧ Offers after.Leads id edge) := by
  unfold Offers
  rw [h.leaves.weak_iff h.mono h.leads_entry hs, silent_entry_iff h.not_to_entry]

end Grows

/-! ## Nodes to which nothing leads -/

lemma Extends.grows {count : Nat} {wires : List Wire} (hx : automaton.Extends count wires after)
    (ha : automaton.WellFormed)
    (hno : ∀ source symbol, ¬ automaton.Leads source symbol automaton.entry)
    (hneat : Neat automaton.size count wires) :
    Grows automaton wires (fun _ => False) after where
  wellFormed := ha
  not_to_entry := hno
  leads_iff := by
    intro source symbol dest
    rw [leads_extend (congrArg Picture.edges hx.picture_eq)]
    simp
  source_ge hw := (hneat.within hw).1.1

lemma Embodies.extend (h : automaton.Embodies patterns arrive) (ha : automaton.WellFormed)
    {count : Nat} {wires : List Wire} (hx : automaton.Extends count wires after)
    (hneat : Neat automaton.size count wires) : after.Embodies patterns arrive := by
  have hgrows := hx.grows ha h.not_to_entry hneat
  have hentry : after.entry = automaton.entry := congrArg Picture.entry hx.picture_eq
  have htoken : after.tokenOf = automaton.tokenOf := congrArg Picture.token hx.picture_eq
  refine ⟨h.arrive_zero.trans hentry.symm, hentry.trans h.entry_eq, h.letters, h.increasing, ?_, ?_,
    ?_, ?_, ?_⟩
  · intro i hi
    have := h.lt_size hi
    rw [hx.size_eq]
    omega
  · intro source symbol hl
    rw [hentry] at hl
    rcases hgrows.leads_iff.mp hl with hl | hw | ⟨-, -, hfalse⟩
    · exact h.not_to_entry _ _ hl
    · have := (hneat.within hw).2.1
      have := ha.entry_lt
      omega
    · exact hfalse
  · apply nodup_extend (congrArg Picture.edges hx.picture_eq) h.nodup hneat.nodup
    rintro ⟨source, dest, ⟨symbol⟩⟩ hw -
    exact (hneat.within hw).1.1
  · intro i hi edge
    rw [hgrows.offers_iff (h.lt_size hi), ← h.offers hi]
    simp
  · intro i hi bound
    rw [htoken, ← h.rests hi]
    refine ⟨fun hb id hs => hb id (hs.mono hgrows.mono), fun hb id hs => ?_⟩
    rcases (hgrows.silent_iff (h.lt_size hi)).mp hs with ⟨-, hs⟩ | ⟨-, _, hfalse, -⟩
    · exact hb id hs
    · exact hfalse.elim

lemma Speaks.extend (h : automaton.Speaks patterns) (ha : automaton.WellFormed)
    (hno : ∀ source symbol, ¬ automaton.Leads source symbol automaton.entry)
    {count : Nat} {wires : List Wire} (hx : automaton.Extends count wires after)
    (hneat : Neat automaton.size count wires) : after.Speaks patterns := by
  have hgrows := hx.grows ha hno hneat
  have hentry : after.entry = automaton.entry := congrArg Picture.entry hx.picture_eq
  have htoken : after.tokenOf = automaton.tokenOf := congrArg Picture.token hx.picture_eq
  refine ⟨h.token_ne, fun word => (Eq.symm ?_).trans (h.run_eq word)⟩
  unfold run
  rw [hentry]
  apply runFrom_congr
  intro bound
  unfold Bounded
  rw [htoken]
  refine ⟨fun hb id hr => ?_, fun hb id hr => hb id (hr.mono hgrows.mono)⟩
  rcases (hgrows.reads_iff ha.entry_lt).mp hr with ⟨-, hr⟩ | ⟨-, _, hfalse, -⟩
  · exact hb id hr
  · exact hfalse.elim

/-! ## One more pattern -/

/-- The values of a function up to a number, and from there on the members of a list. -/
def resume {α : Type} (n : Nat) (f : Nat → α) (members : List α) (j : Nat) : α :=
  if j ≤ n then f j else members.getD (j - (1 + n)) (f 0)

lemma resume_of_le {α : Type} {n j : Nat} {f : Nat → α} {members : List α} (h : j ≤ n) :
    resume n f members j = f j := if_pos h

lemma spread_resume {α : Type} (n : Nat) (f : Nat → α) (members : List α) :
    Spread (1 + n) members (resume n f members) := by
  intro k hk
  unfold resume
  rw [if_neg (by omega), Nat.add_sub_cancel_left]
  simp [hk]

/-- What an automaton becomes by a pattern that is read. -/
structure Gains (automaton : Automaton) (regex : Regex) (token : UInt32) (after : Automaton) : Prop
    where
  wellFormed : automaton.WellFormed
  shows : Shows automaton (automaton.picture.gain regex token
    [.silent automaton.entry (regex.entryAt automaton.size)]) after

namespace Gains

lemma entry_eq (h : Gains automaton regex token after) : after.entry = automaton.entry :=
  congrArg Picture.entry h.shows.picture_eq

lemma size_eq (h : Gains automaton regex token after) :
    after.size = automaton.size + regex.nodeCount :=
  congrArg Picture.size h.shows.picture_eq

lemma edgesOf_eq (h : Gains automaton regex token after) :
    after.edgesOf = (automaton.picture.extend regex.nodeCount (regex.wiring automaton.size ++
      [.silent automaton.entry (regex.entryAt automaton.size)])).edges :=
  congrArg Picture.edges h.shows.picture_eq

lemma tokenOf_eq (h : Gains automaton regex token after) (id : NodeId) : after.tokenOf id =
    if id = regex.exitAt automaton.size then token else automaton.tokenOf id := by
  have htoken : after.tokenOf =
      Function.update automaton.tokenOf (regex.exitAt automaton.size) token :=
    congrArg Picture.token h.shows.picture_eq
  rw [htoken, Function.update_apply]

lemma tokenOf_old (h : Gains automaton regex token after) (hid : id.toNat < automaton.size) :
    after.tokenOf id = automaton.tokenOf id := by
  rw [h.tokenOf_eq, if_neg]
  rintro rfl
  have := (regex.covers_exitAt automaton.size).1
  omega

lemma grows (h : Gains automaton regex token after)
    (hno : ∀ source symbol, ¬ automaton.Leads source symbol automaton.entry) :
    Grows automaton (regex.wiring automaton.size) (· = regex.entryAt automaton.size) after where
  wellFormed := h.wellFormed
  not_to_entry := hno
  leads_iff := by
    intro source symbol dest
    rw [leads_extend h.edgesOf_eq, wired_append]
    simp only [Wired, Wire.silent, List.mem_singleton, Wire.mk.injEq, Edge.mk.injEq,
      Transition.mk.injEq]
    tauto
  source_ge hw := ((Regex.isolated _ regex).covers hw).1.1

lemma leaves (h : Gains automaton regex token after)
    (hno : ∀ source symbol, ¬ automaton.Leads source symbol automaton.entry) :
    Leaves (Wired (regex.wiring automaton.size)) after.Leads (regex.Covers automaton.size)
      (regex.exitAt automaton.size) fun _ => False := by
  intro source symbol dest hin hl
  rcases (h.grows hno).leads_iff.mp hl with hl | hw | ⟨rfl, -, -⟩
  · exact absurd (lt_size_of_edge hl) (Nat.not_lt.mpr hin.1)
  · exact .inl ⟨hw, ((Regex.isolated _ regex).covers hw).2⟩
  · exact absurd h.wellFormed.entry_lt (Nat.not_lt.mpr hin.1)

lemma reads_iff (h : Gains automaton regex token after)
    (hno : ∀ source symbol, ¬ automaton.Leads source symbol automaton.entry)
    (hs : regex.Covers automaton.size source) {word : List UInt8} :
    Reads after.Leads source word dest ↔ regex.Covers automaton.size dest ∧
      Reads (Wired (regex.wiring automaton.size)) source word dest := by
  rw [(h.leaves hno).reads_iff (fun _ _ _ hw => (h.grows hno).leads_iff.mpr (.inr (.inl hw))) nofun hs]
  simp

lemma silent_iff (h : Gains automaton regex token after)
    (hno : ∀ source symbol, ¬ automaton.Leads source symbol automaton.entry)
    (hs : regex.Covers automaton.size source) : Silent after.Leads source dest ↔
      regex.Covers automaton.size dest ∧
        Silent (Wired (regex.wiring automaton.size)) source dest := by
  simp only [← reads_nil_iff]
  exact h.reads_iff hno hs

lemma offers_iff (h : Gains automaton regex token after)
    (hno : ∀ source symbol, ¬ automaton.Leads source symbol automaton.entry)
    (hs : regex.Covers automaton.size source) {edge : Edge Transition} :
    Offers after.Leads source edge ↔
      Offers (Wired (regex.wiring automaton.size)) source edge := by
  unfold Offers
  rw [(h.leaves hno).weak_iff (fun _ _ _ hw => (h.grows hno).leads_iff.mpr (.inr (.inl hw))) nofun hs]
  simp

lemma le_tokenOf_iff (h : Gains automaton regex token after) {p : NodeId → Prop} {bound : UInt32} :
    (∀ id, regex.Covers automaton.size id ∧ p id → bound ≤ after.tokenOf id) ↔
      (p (regex.exitAt automaton.size) → bound ≤ token) := by
  constructor
  · intro hb hp
    have := hb _ ⟨regex.covers_exitAt _, hp⟩
    rwa [h.tokenOf_eq, if_pos rfl] at this
  · rintro hb id ⟨hin, hp⟩
    rw [h.tokenOf_eq]
    by_cases hid : id = regex.exitAt automaton.size
    · rw [if_pos hid]
      exact hb (hid ▸ hp)
    · rw [if_neg hid, tokenOf_of_size_le hin.1]
      exact le_noToken bound

lemma traverses (h : Gains automaton regex token after)
    (hno : ∀ source symbol, ¬ automaton.Leads source symbol automaton.entry) (hp : regex.Proper)
    {number : Nat} (hs : Spread number (regex.arrivals automaton.size) arrive) :
    Traverses after.Leads (regex.entryAt automaton.size) (regex.exitAt automaton.size) regex number
      arrive := by
  have ht := Regex.traverses automaton.size number hp hs
  have hentry := regex.covers_entryAt automaton.size
  have hexit := regex.covers_exitAt automaton.size
  refine ⟨?_, fun edge => ?_, fun i hi => ?_, fun i hi edge => ?_⟩
  · rw [h.silent_iff hno hentry, ht.pass]
    exact and_iff_right hexit
  · rw [h.offers_iff hno hentry, ht.start]
  · rw [h.silent_iff hno (Regex.covers_arrive hs hi), ht.stop i hi]
    exact and_iff_right hexit
  · rw [h.offers_iff hno (Regex.covers_arrive hs hi), ht.step i hi]

lemma rests_iff (h : Gains automaton regex token after)
    (hno : ∀ source symbol, ¬ automaton.Leads source symbol automaton.entry)
    (hs : regex.Covers automaton.size source) (bound : UInt32) :
    (∀ id, Silent after.Leads source id → bound ≤ after.tokenOf id) ↔
      (Silent after.Leads source (regex.exitAt automaton.size) → bound ≤ token) := by
  simp only [h.silent_iff hno hs]
  rw [h.le_tokenOf_iff]
  exact imp_congr_left (and_iff_right (regex.covers_exitAt _)).symm

end Gains

lemma Embodies.dest_eq_entry_iff (h : automaton.Embodies patterns arrive) {i : Nat}
    (hi : i ≤ (lettersOf patterns).length) : (arrive i).dest = automaton.entry ↔ i = 0 := by
  rw [← h.arrive_zero]
  constructor
  · intro heq
    by_contra hne
    have := h.increasing (Nat.pos_of_ne_zero hne) hi
    rw [heq] at this
    omega
  · rintro rfl
    rfl

section Gain

variable {arrive' : Nat → Edge Transition} {i : Nat}

lemma numbers_of_not_le (hi : i ≤ (lettersOf (patterns ++ [(token, regex)])).length)
    (hgt : ¬ i ≤ (lettersOf patterns).length) :
    regex.Numbers (1 + (lettersOf patterns).length) i := by
  rw [lettersOf_concat, List.length_append] at hi
  unfold Regex.Numbers Regex.literalCount
  omega

lemma Embodies.gain_increasing (h : automaton.Embodies patterns arrive)
    (hold : ∀ {i}, i ≤ (lettersOf patterns).length → arrive' i = arrive i)
    (hnew : Spread (1 + (lettersOf patterns).length) (regex.arrivals automaton.size) arrive')
    {j : Nat} (hlt : i < j) (hj : j ≤ (lettersOf (patterns ++ [(token, regex)])).length) :
    (arrive' i).dest.toNat < (arrive' j).dest.toNat := by
  by_cases hj' : j ≤ (lettersOf patterns).length
  · rw [hold (by omega), hold hj']
    exact h.increasing hlt hj'
  have hnumber := numbers_of_not_le hj hj'
  by_cases hi' : i ≤ (lettersOf patterns).length
  · have := h.lt_size hi'
    have := (Regex.covers_arrive hnew hnumber).1
    rw [hold hi']
    omega
  · obtain ⟨k, rfl⟩ := Nat.exists_eq_add_of_le (show 1 + (lettersOf patterns).length ≤ i by omega)
    obtain ⟨l, rfl⟩ := Nat.exists_eq_add_of_le hnumber.1
    have hl : l < (regex.arrivals automaton.size).length := by
      rw [Regex.length_arrivals]
      have := hnumber.2
      omega
    rw [hnew k (by omega), hnew l hl]
    exact List.pairwise_iff_getElem.mp (Regex.arrivals_spec automaton.size regex).2 k l _ hl (by omega)

lemma Embodies.gain_offers (h : automaton.Embodies patterns arrive)
    (hg : Gains automaton regex token after) (hp : regex.Proper)
    (hold : ∀ {i}, i ≤ (lettersOf patterns).length → arrive' i = arrive i)
    (hnew : Spread (1 + (lettersOf patterns).length) (regex.arrivals automaton.size) arrive')
    (hi : i ≤ (lettersOf (patterns ++ [(token, regex)])).length) (edge : Edge Transition) :
    Offers after.Leads (arrive' i).dest edge ↔
      ∃ j, Succeeds (patterns ++ [(token, regex)]) i j ∧ arrive' j = edge := by
  have ht := hg.traverses h.not_to_entry hp hnew
  simp only [succeeds_concat]
  -- what an old position offers, it offered before; only the entry has come to offer more
  by_cases hi' : i ≤ (lettersOf patterns).length
  · have hnot : ∀ j, (i, j) ∉ regex.follow (1 + (lettersOf patterns).length) := by
      intro j hij
      have := (Regex.numbers_of_mem_follow hij).1.1
      omega
    rw [hold hi', (hg.grows h.not_to_entry).offers_iff (h.lt_size hi'), h.offers hi',
      h.dest_eq_entry_iff hi']
    simp only [exists_eq_left, ht.start, hnot, or_false, or_and_right, exists_or, and_assoc,
      exists_and_left]
    refine or_congr_left (exists_congr fun j => and_congr_right fun hs => ?_)
    rw [hold hs.le.2.2]
  · have hnumber := numbers_of_not_le hi hi'
    have hnot : ∀ j, ¬ Succeeds patterns i j := fun j hs => hi' hs.le.1
    have hzero : i ≠ 0 := by
      rintro rfl
      exact hi' (Nat.zero_le _)
    rw [ht.step i hnumber]
    simp only [hnot, hzero, false_or, false_and]

lemma Embodies.gain_rests (h : automaton.Embodies patterns arrive)
    (hg : Gains automaton regex token after) (hp : regex.Proper)
    (hold : ∀ {i}, i ≤ (lettersOf patterns).length → arrive' i = arrive i)
    (hnew : Spread (1 + (lettersOf patterns).length) (regex.arrivals automaton.size) arrive')
    (hi : i ≤ (lettersOf (patterns ++ [(token, regex)])).length) (bound : UInt32) :
    (∀ id, Silent after.Leads (arrive' i).dest id → bound ≤ after.tokenOf id) ↔
      ∀ other, Concludes (patterns ++ [(token, regex)]) i other → bound ≤ other := by
  have ht := hg.traverses h.not_to_entry hp hnew
  have hgrows := hg.grows h.not_to_entry
  have hentry := regex.covers_entryAt automaton.size
  simp only [concludes_concat, or_imp, forall_and, and_imp, forall_eq']
  by_cases hi' : i ≤ (lettersOf patterns).length
  · have hnot : i ∉ regex.last (1 + (lettersOf patterns).length) := by
      intro hl
      have := (Regex.numbers_of_mem_last hl).1
      omega
    have hfresh := hg.rests_iff h.not_to_entry hentry bound
    rw [ht.pass] at hfresh
    simp only [hnot, false_imp_iff, and_true]
    rw [← h.rests hi', ← hfresh, ← h.dest_eq_entry_iff hi', hold hi']
    have hlt := h.lt_size hi'
    -- an old node reaches silently what it reached, and from the entry also the new fragment
    constructor
    · intro hb
      refine ⟨fun id hs => ?_, fun heq id hs => hb id ?_⟩
      · have hs' := hs.mono hgrows.mono
        rcases (hgrows.silent_iff hlt).mp hs' with ⟨hid, -⟩ | ⟨heq, _, rfl, hs''⟩
        · rw [← hg.tokenOf_old hid]
          exact hb id hs'
        · exact absurd (lt_size_of_reads hg.wellFormed hlt (reads_nil_iff.mpr hs)) (Nat.not_lt.mpr
            ((hg.silent_iff h.not_to_entry hentry).mp hs'').1.1)
      · exact (hgrows.silent_iff hlt).mpr (.inr ⟨heq, _, rfl, hs⟩)
    · rintro ⟨hb, hb'⟩ id hs
      rcases (hgrows.silent_iff hlt).mp hs with ⟨hid, hs⟩ | ⟨heq, _, rfl, hs⟩
      · rw [hg.tokenOf_old hid]
        exact hb id hs
      · exact hb' heq id hs
  · have hnumber := numbers_of_not_le hi hi'
    have hnot : ∀ other, ¬ Concludes patterns i other := fun other hc => hi' hc.le
    have hzero : i ≠ 0 := by
      rintro rfl
      exact hi' (Nat.zero_le _)
    rw [hg.rests_iff h.not_to_entry (Regex.covers_arrive hnew hnumber), ht.stop i hnumber]
    simp only [hnot, hzero, false_imp_iff, implies_true, true_and]

end Gain

/-- An automaton that gains a pattern embodies it after the others. -/
theorem Embodies.gain (h : automaton.Embodies patterns arrive) (hg : Gains automaton regex token after)
    (hp : regex.Proper) : after.Embodies (patterns ++ [(token, regex)])
      (resume (lettersOf patterns).length arrive (regex.arrivals automaton.size)) := by
  have hnew := spread_resume (lettersOf patterns).length arrive (regex.arrivals automaton.size)
  have hold : ∀ {i}, i ≤ (lettersOf patterns).length →
      resume (lettersOf patterns).length arrive (regex.arrivals automaton.size) i = arrive i :=
    resume_of_le
  refine ⟨?_, hg.entry_eq.trans h.entry_eq, ?_, h.gain_increasing hold hnew, ?_, ?_, ?_,
    h.gain_offers hg hp hold hnew, h.gain_rests hg hp hold hnew⟩
  · rw [hold (Nat.zero_le _), h.arrive_zero, hg.entry_eq]
  · rw [lettersOf_concat, spread_append]
    refine ⟨fun k hk => ?_, fun k hk => ?_⟩
    · have := h.letters k hk
      dsimp only at this ⊢
      rwa [hold (by omega)]
    · have hk' : k < (regex.arrivals automaton.size).length := by rwa [Regex.length_arrivals]
      have hletters := regex.map_symbol_arrivals automaton.size
      simp only [hnew k hk', ← hletters, List.getElem_map]
  · intro i hi
    rw [hg.size_eq]
    by_cases hi' : i ≤ (lettersOf patterns).length
    · have := h.lt_size hi'
      rw [hold hi']
      omega
    · exact (Regex.covers_arrive hnew (numbers_of_not_le hi hi')).2
  · intro source symbol hl
    rw [hg.entry_eq] at hl
    have hlt := hg.wellFormed.entry_lt
    rcases (hg.grows h.not_to_entry).leads_iff.mp hl with hl | hw | ⟨-, -, heq⟩
    · exact h.not_to_entry _ _ hl
    · have := ((Regex.isolated _ regex).covers hw).2.1
      omega
    · have := (regex.covers_entryAt automaton.size).1
      rw [← heq] at this
      omega
  · refine nodup_extend hg.edgesOf_eq h.nodup ?_ ?_
    · rw [List.filter_append]
      exact (List.append_nil _).symm ▸ nodup_wiring automaton.size regex
    · rintro ⟨source, dest, ⟨symbol⟩⟩ hw hc
      rcases wired_append.mp hw with hw | hw
      · exact ((Regex.isolated _ regex).covers hw).1.1
      · rw [Wired, List.mem_singleton] at hw
        rw [hw] at hc
        cases hc

lemma Gains.bounded_iff (hg : Gains automaton regex token after)
    (hno : ∀ source symbol, ¬ automaton.Leads source symbol automaton.entry) (hp : regex.Proper)
    (word : List UInt8) (bound : UInt32) : after.Bounded automaton.entry word bound ↔
      automaton.Bounded automaton.entry word bound ∧ (word ∈ regex.language → bound ≤ token) := by
  have hentry := regex.covers_entryAt automaton.size
  have hlt := hg.wellFormed.entry_lt
  have hreads : ∀ id, Reads after.Leads automaton.entry word id ↔
      Reads automaton.Leads automaton.entry word id ∨ (regex.Covers automaton.size id ∧
        Reads (Wired (regex.wiring automaton.size)) (regex.entryAt automaton.size) word id) := by
    intro id
    rw [(hg.grows hno).reads_iff hlt]
    simp only [true_and, exists_eq_left, hg.reads_iff hno hentry]
    exact or_congr_left (and_iff_right_of_imp (lt_size_of_reads hg.wellFormed hlt))
  have hword : word ∈ regex.language ↔ Reads (Wired (regex.wiring automaton.size))
      (regex.entryAt automaton.size) word (regex.exitAt automaton.size) := by
    rw [← Regex.passage_eq_language automaton.size hp]
    rfl
  rw [hword, ← hg.le_tokenOf_iff]
  simp only [Bounded, hreads, or_imp, forall_and]
  refine and_congr_left fun _ => forall_congr' fun id => forall_congr' fun hr => ?_
  rw [hg.tokenOf_old (lt_size_of_reads hg.wellFormed hlt hr)]

/-- An automaton that gains a pattern gives its words its token, unless a lower one is given. -/
theorem Speaks.gain (h : automaton.Speaks patterns)
    (hno : ∀ source symbol, ¬ automaton.Leads source symbol automaton.entry)
    (hg : Gains automaton regex token after) (hp : regex.Proper) (htoken : token ≠ State.noToken) :
    after.Speaks (patterns ++ [(token, regex)]) where
  token_ne pattern hpattern := by
    rcases List.mem_append.mp hpattern with hold | hnew
    · exact h.token_ne pattern hold
    · rw [List.mem_singleton.mp hnew]
      exact htoken
  run_eq word := by
    have hmem : ∀ other, other ∈ tokensFor (patterns ++ [(token, regex)]) word ↔
        other ∈ tokensFor patterns word ∨ (other = token ∧ word ∈ regex.language) := by
      intro other
      simp only [tokensFor, Set.mem_ofPred_eq, List.mem_append, List.mem_singleton, Prod.mk.injEq,
        or_and_right, exists_or, and_assoc, exists_and_left, exists_eq_left]
    refine least_congr (noToken_notMem_tokensFrom _ _) ?_ fun bound => ?_
    · rw [hmem]
      rintro (⟨other, hpattern, -⟩ | ⟨heq, -⟩)
      · exact h.token_ne _ hpattern rfl
      · exact htoken heq.symm
    · rw [← bounded_iff, hg.entry_eq, hg.bounded_iff hno hp, bounded_iff,
        bounds_congr (h.run_eq word)]
      simp only [hmem, or_imp, forall_and, and_imp, forall_eq]

end Automaton

end PatternAutomata
