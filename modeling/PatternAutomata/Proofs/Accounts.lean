import PatternAutomata.Proofs.Lockstep
import Mathlib.Algebra.GroupWithZero.Nat

/-!
# Arenas account for every byte

An arena that serves requests hands out blocks that tile it from its front. It has used the sum of the
rounded sizes, and counts as requested the sum of the sizes asked for. It refuses a request exactly
if the rounded size, computed without bound, exceeds what remains. None of the words that it computes
with on the way wraps around.
-/

namespace PatternAutomata

/-! ## Words that must not wrap around -/

/-- The sum of two words, if it is a word. -/
def sum? (a b : UInt64) : Option UInt64 :=
  if a.toNat + b.toNat < UInt64.size then some (a + b) else none

/-- The difference of two words, if it is a word. -/
def difference? (a b : UInt64) : Option UInt64 :=
  if b.toNat ≤ a.toNat then some (a - b) else none

lemma sum?_eq_some {a b c : UInt64} (h : a.toNat + b.toNat = c.toNat) : sum? a b = some c := by
  have hlt : a.toNat + b.toNat < UInt64.size := h ▸ c.toNat_lt
  unfold sum?
  rw [if_pos hlt, Option.some.injEq, ← UInt64.toNat_inj, UInt64.toNat_add, ← h]
  exact Nat.mod_eq_of_lt hlt

lemma difference?_of_le {a b : UInt64} (h : b ≤ a) : difference? a b = some (a - b) :=
  if_pos (UInt64.le_iff_toNat_le.mp h)

/-- One past the last byte of a block, if it is a word. -/
def Block.stop? (block : Block) : Option UInt64 := sum? block.offset block.size

namespace Arena

variable {arena after : Arena}

/-- The bytes still there, if their number is a word. -/
def remaining? (arena : Arena) : Option UInt64 := difference? arena.capacity arena.used

/-- As `alloc`, but without an answer if a word wraps around that is not looked at. -/
def alloc? (arena : Arena) (bytes count : UInt64) : Option (Except Fault (Block × Arena)) :=
  match product? bytes count with
  | none => some (.error (.arenaExhausted arena.capacity))
  | some requested =>
    match sum? requested 7 with
    | none => some (.error (.arenaExhausted arena.capacity))
    | some padded => do
      let size ← product? (padded / 8) 8
      let remaining ← arena.remaining?
      if remaining < size then return .error (.arenaExhausted arena.capacity)
      let used ← sum? arena.used size
      let requested ← sum? arena.requested requested
      return .ok (⟨arena.used, size⟩, { arena with used, requested })

/-! ## One request -/

/-- A request for room for some elements of a size. -/
structure Request where
  bytes : UInt64
  count : UInt64

namespace Request

/-- The bytes that a request asks for. -/
def total (request : Request) : Nat := request.bytes.toNat * request.count.toNat

/-- The bytes that a request takes. -/
def room (request : Request) : Nat := roundedUp request.total

end Request

/-- An arena has handed out no more than it has and no less than was asked for, in whole words. -/
structure Solvent (arena : Arena) : Prop where
  requested_le : arena.requested ≤ arena.used
  used_le : arena.used ≤ arena.capacity
  aligned : 8 ∣ arena.used.toNat

lemma solvent_new (capacity : UInt64) : ({ capacity } : Arena).Solvent :=
  ⟨UInt64.le_refl 0, UInt64.zero_le, by simp⟩

/-- What an arena hands out for a request, and what it becomes. -/
structure Grants (arena : Arena) (request : Request) (block : Block) (after : Arena) : Prop where
  offset_eq : block.offset = arena.used
  aligned : 8 ∣ block.offset.toNat
  size_eq : block.size.toNat = request.room
  capacity_eq : after.capacity = arena.capacity
  used_eq : after.used.toNat = arena.used.toNat + request.room
  requested_eq : after.requested.toNat = arena.requested.toNat + request.total
  solvent : after.Solvent

/-- An arena answers a request as if words were unbounded, and no word wraps around. -/
structure Answers (arena : Arena) (request : Request) : Prop where
  refuses_iff : arena.alloc request.bytes request.count = .error (.arenaExhausted arena.capacity) ↔
    arena.capacity.toNat - arena.used.toNat < request.room
  grants : request.room ≤ arena.capacity.toNat - arena.used.toNat → ∃ block after,
    arena.alloc request.bytes request.count = .ok (block, after) ∧ arena.Grants request block after
  unwrapped : arena.alloc? request.bytes request.count =
    some (arena.alloc request.bytes request.count)

/-- Padding to whole words wraps around only where the padded sum does. -/
lemma product?_words (padded : UInt64) : product? (padded / 8) 8 = some (padded / 8 * 8) := by
  have hlt := padded.toNat_lt
  refine if_pos ?_
  rw [UInt64.toNat_div]
  change padded.toNat / 8 * 8 < 18446744073709551616
  omega

lemma alloc?_eq (arena : Arena) (bytes count : UInt64) :
    arena.alloc? bytes count =
      (block? bytes count).elim (some (.error (.arenaExhausted arena.capacity))) fun block => do
        let remaining ← arena.remaining?
        if remaining < block.2 then return .error (.arenaExhausted arena.capacity)
        let used ← sum? arena.used block.2
        let requested ← sum? arena.requested block.1
        return .ok (⟨arena.used, block.2⟩, { arena with used, requested }) := by
  unfold alloc? block?
  cases product? bytes count with
  | none => rfl
  | some requested =>
    by_cases hlt : requested.toNat + 7 < UInt64.size
    · have hsum : sum? requested 7 = some (requested + 7) := if_pos hlt
      have hround : roundUp? requested = some (wholeWords requested) := if_pos hlt
      simp only [hsum, hround, product?_words, Option.bind_some, Option.map_some, Option.elim_some,
        Option.bind_eq_bind]
      rfl
    · have hsum : sum? requested 7 = none := if_neg hlt
      have hround : roundUp? requested = none := if_neg hlt
      simp only [hsum, hround, Option.bind_some, Option.map_none, Option.elim_none]

lemma Solvent.remaining?_eq (h : arena.Solvent) : arena.remaining? = some arena.remaining :=
  difference?_of_le h.used_le

/-- A request for whole words that remain is granted. -/
lemma Solvent.grants (h : arena.Solvent) {request : Request} {requested size : UInt64}
    (hrequested : requested.toNat = request.total) (hsize : size.toNat = request.room)
    (hfits : arena.used.toNat + request.room ≤ arena.capacity.toNat) :
    arena.Grants request ⟨arena.used, size⟩ { arena with
      used := arena.used + size, requested := arena.requested + requested } := by
  have hcapacity := arena.capacity.toNat_lt
  have hle := UInt64.le_iff_toNat_le.mp h.requested_le
  have hround : request.total ≤ request.room := le_roundedUp _
  have hused : (arena.used + size).toNat = arena.used.toNat + request.room := by
    rw [UInt64.toNat_add, hsize, Nat.mod_eq_of_lt (by omega)]
  have hasked : (arena.requested + requested).toNat = arena.requested.toNat + request.total := by
    rw [UInt64.toNat_add, hrequested, Nat.mod_eq_of_lt (by omega)]
  refine ⟨rfl, h.aligned, hsize, rfl, hused, hasked, ?_, ?_, ?_⟩
  · rw [UInt64.le_iff_toNat_le, hasked, hused]
    omega
  · rw [UInt64.le_iff_toNat_le, hused]
    exact hfits
  · rw [hused]
    exact Nat.dvd_add h.aligned (Nat.dvd_mul_left 8 _)

/-- A charge that does not fit the words does not fit the arena either. -/
lemma Solvent.answers (h : arena.Solvent) (request : Request) : arena.Answers request := by
  have hle := UInt64.le_iff_toNat_le.mp h.used_le
  have hspec := block?_spec request.bytes request.count
  have halloc := arena.alloc_eq request.bytes request.count
  have hwatched := arena.alloc?_eq request.bytes request.count
  cases hb : block? request.bytes request.count with
  | none =>
    rw [hb] at hspec halloc hwatched
    have hlarge : arena.capacity.toNat - arena.used.toNat < request.room :=
      Nat.lt_of_le_of_lt (Nat.sub_le _ _) (Nat.lt_of_lt_of_le arena.capacity.toNat_lt hspec)
    refine ⟨iff_of_true halloc hlarge, fun hfits => absurd hlarge (Nat.not_lt.mpr hfits), ?_⟩
    rw [halloc, hwatched]
    rfl
  | some block =>
    obtain ⟨requested, size⟩ := block
    rw [hb] at hspec halloc hwatched
    obtain ⟨hrequested, hsize⟩ : requested.toNat = request.total ∧ size.toNat = request.room := hspec
    have hover : arena.remaining < size ↔ _ := remaining_lt_iff h.used_le
    rw [hsize] at hover
    simp only [Option.elim_some, h.remaining?_eq, Option.bind_eq_bind, Option.bind_some] at halloc hwatched
    by_cases hfits : arena.used.toNat + request.room ≤ arena.capacity.toNat
    · have hgrants := h.grants hrequested hsize hfits
      have hroom : ¬ arena.remaining < size := mt hover.mp (Nat.not_lt.mpr hfits)
      have hused := sum?_eq_some (hsize ▸ hgrants.used_eq.symm)
      have hasked := sum?_eq_some (hrequested ▸ hgrants.requested_eq.symm)
      simp only [hroom, if_false, hused, hasked, Option.bind_some] at halloc hwatched
      refine ⟨iff_of_false (by rw [halloc]; nofun) (by omega),
        fun _ => ⟨_, _, halloc, hgrants⟩, ?_⟩
      rw [halloc, hwatched]
      rfl
    · have hfull : arena.remaining < size := hover.mpr (Nat.not_le.mp hfits)
      simp only [hfull, if_true] at halloc hwatched
      refine ⟨iff_of_true halloc (by omega), fun hroom => absurd hroom (by omega), ?_⟩
      rw [halloc, hwatched]
      rfl

/-! ## Requests in turn -/

/-- Serves requests in turn. -/
def serve (arena : Arena) : List Request → Except Fault (List Block × Arena)
  | [] => return ([], arena)
  | request :: rest => do
    let (block, arena) ← arena.alloc request.bytes request.count
    let (blocks, arena) ← arena.serve rest
    return (block :: blocks, arena)

/-- Blocks that follow one another without a gap, from one byte to another. -/
def Tile (start : Nat) : List Block → Nat → Prop
  | [], stop => start = stop
  | block :: rest, stop =>
    block.offset.toNat = start ∧ Tile (start + block.size.toNat) rest stop

/-- How an arena that has served requests stands to what it was. -/
structure Serves (arena : Arena) (requests : List Request) (blocks : List Block) (after : Arena) :
    Prop where
  solvent : after.Solvent
  capacity_eq : after.capacity = arena.capacity
  used_eq : after.used.toNat = arena.used.toNat + (requests.map Request.room).sum
  requested_eq : after.requested.toNat = arena.requested.toNat + (requests.map Request.total).sum
  sizes_eq : blocks.map (fun block => block.size.toNat) = requests.map Request.room
  tile : Tile arena.used.toNat blocks after.used.toNat
  aligned : ∀ block ∈ blocks, 8 ∣ block.offset.toNat

lemma Grants.cons {request : Request} {rest : List Request} {block : Block} {blocks : List Block}
    {last : Arena} (h : arena.Grants request block after) (hr : after.Serves rest blocks last) :
    arena.Serves (request :: rest) (block :: blocks) last where
  solvent := hr.solvent
  capacity_eq := hr.capacity_eq.trans h.capacity_eq
  used_eq := by rw [hr.used_eq, h.used_eq, List.map_cons, List.sum_cons, Nat.add_assoc]
  requested_eq := by rw [hr.requested_eq, h.requested_eq, List.map_cons, List.sum_cons, Nat.add_assoc]
  sizes_eq := by rw [List.map_cons, List.map_cons, h.size_eq, hr.sizes_eq]
  tile := by
    refine ⟨congrArg UInt64.toNat h.offset_eq, ?_⟩
    rw [h.size_eq, ← h.used_eq]
    exact hr.tile
  aligned := List.forall_mem_cons.mpr ⟨h.aligned, hr.aligned⟩

/-- Requests are served one after the other until one does not fit. -/
lemma Solvent.serve (h : arena.Solvent) (requests : List Request) :
    match arena.serve requests with
    | .ok (blocks, after) => arena.Serves requests blocks after
    | .error fault => fault = .arenaExhausted arena.capacity ∧
        arena.capacity.toNat < arena.used.toNat + (requests.map Request.room).sum := by
  induction requests generalizing arena with
  | nil => exact ⟨h, rfl, rfl, rfl, rfl, rfl, nofun⟩
  | cons request rest ih =>
    have hanswers := h.answers request
    have hle := UInt64.le_iff_toNat_le.mp h.used_le
    unfold Arena.serve
    by_cases hfits : request.room ≤ arena.capacity.toNat - arena.used.toNat
    · obtain ⟨block, after, halloc, hgrants⟩ := hanswers.grants hfits
      have hrest := ih hgrants.solvent
      rw [halloc]
      change match (do
        let (blocks, arena) ← after.serve rest
        return (block :: blocks, arena) : Except Fault (List Block × Arena)) with
        | .ok (blocks, after) => arena.Serves (request :: rest) blocks after
        | .error fault => fault = .arenaExhausted arena.capacity ∧
            arena.capacity.toNat < arena.used.toNat + ((request :: rest).map Request.room).sum
      cases hserve : after.serve rest with
      | ok outcome =>
        rw [hserve] at hrest
        exact hgrants.cons hrest
      | error fault =>
        rw [hserve] at hrest
        rw [List.map_cons, List.sum_cons, ← Nat.add_assoc, ← hgrants.used_eq, ← hgrants.capacity_eq]
        exact hrest
    · have hrefuses := hanswers.refuses_iff.mpr (Nat.not_le.mp hfits)
      rw [hrefuses]
      refine ⟨rfl, ?_⟩
      rw [List.map_cons, List.sum_cons]
      omega

/-! ## The whole account -/

lemma Tile.bounds {start stop : Nat} {blocks : List Block} (h : Tile start blocks stop) :
    start ≤ stop ∧ ∀ block ∈ blocks,
      start ≤ block.offset.toNat ∧ block.offset.toNat + block.size.toNat ≤ stop := by
  induction blocks generalizing start with
  | nil => exact ⟨Nat.le_of_eq h, nofun⟩
  | cons block rest ih =>
    obtain ⟨hoffset, hrest⟩ := h
    obtain ⟨hle, hbounds⟩ := ih hrest
    refine ⟨by omega, List.forall_mem_cons.mpr ⟨by omega, fun later hl => ?_⟩⟩
    have := hbounds later hl
    omega

lemma Tile.stop?_eq {start : Nat} {stop : UInt64} {blocks : List Block}
    (h : Tile start blocks stop.toNat) {block : Block} (hb : block ∈ blocks) :
    block.stop? = some block.stop :=
  if_pos (Nat.lt_of_le_of_lt (h.bounds.2 block hb).2 stop.toNat_lt)

/-- Blocks that tile an arena do not overlap. -/
lemma Tile.pairwise {start stop : Nat} {blocks : List Block} (h : Tile start blocks stop) :
    blocks.Pairwise fun block later =>
      block.offset.toNat + block.size.toNat ≤ later.offset.toNat := by
  induction blocks generalizing start with
  | nil => exact .nil
  | cons block rest ih =>
    obtain ⟨rfl, hrest⟩ := h
    exact .cons (fun later hl => (hrest.bounds.2 later hl).1) (ih hrest)

/-- How an arena of some capacity stands after it has served requests with blocks. -/
structure Accounts (capacity : UInt64) (requests : List Request) (blocks : List Block)
    (arena : Arena) : Prop where
  capacity_eq : arena.capacity = capacity
  /-- The blocks tile the bytes used in the order of the requests, without overlap. -/
  tile : Tile 0 blocks arena.used.toNat
  disjoint : blocks.Pairwise fun block later =>
    block.offset.toNat + block.size.toNat ≤ later.offset.toNat
  aligned : ∀ block ∈ blocks, 8 ∣ block.offset.toNat
  sizes_eq : blocks.map (fun block => block.size.toNat) = requests.map Request.room
  used_eq : arena.used.toNat = (requests.map Request.room).sum
  requested_eq : arena.requested.toNat = (requests.map Request.total).sum
  requested_le : arena.requested ≤ arena.used
  used_le : arena.used ≤ capacity
  /-- Neither the ends of the blocks nor the number of bytes still there wrap around. -/
  stops : ∀ block ∈ blocks, block.stop? = some block.stop
  remains : arena.remaining? = some arena.remaining

/-- After any requests the books of an arena are exact, and it answers any further request as if
words were unbounded. It refuses to serve requests only if their rounded sizes exceed its capacity in
all. -/
theorem serve_accounts (capacity : UInt64) (requests : List Request) :
    match ({ capacity } : Arena).serve requests with
    | .ok (blocks, arena) =>
      Accounts capacity requests blocks arena ∧ ∀ request, arena.Answers request
    | .error fault => fault = .arenaExhausted capacity ∧
        capacity.toNat < (requests.map Request.room).sum := by
  have hserve := (solvent_new capacity).serve requests
  cases hs : ({ capacity } : Arena).serve requests with
  | error fault =>
    rw [hs] at hserve
    simpa using hserve
  | ok outcome =>
    obtain ⟨blocks, arena⟩ := outcome
    rw [hs] at hserve
    obtain ⟨hsolvent, hcapacity, hused, hrequested, hsizes, htile, haligned⟩ := hserve
    have hzero : (0 : UInt64).toNat = 0 := rfl
    rw [hzero, Nat.zero_add] at hused hrequested
    have hfull : arena.capacity = capacity := hcapacity
    exact ⟨⟨hfull, htile, htile.pairwise, haligned, hsizes, hused, hrequested,
      hsolvent.requested_le, hfull ▸ hsolvent.used_le, fun _ hb => htile.stop?_eq hb,
      hsolvent.remaining?_eq⟩, hsolvent.answers⟩

/-- Padding fills an arena, and a request for nothing takes nothing. -/
example : (({ capacity := 24 } : Arena).serve [⟨1, 3⟩, ⟨4, 0⟩, ⟨2, 5⟩]).toOption =
    some ([⟨0, 8⟩, ⟨8, 0⟩, ⟨8, 16⟩], { capacity := 24, used := 24, requested := 13 }) := by
  decide

end Arena

end PatternAutomata
