import HexFabric.Placement.Strategy
import HexFabric.Proofs.Partition.Incidence
import HexFabric.Proofs.Placement.FirstFit
import HexFabric.Proofs.Placement.Proposal
import Mathlib

/-! Annealing, and placing by any strategy. A run keeps its books complete and in agreement, its
best placement fits, and neither moves a pinned slice. So annealing, where there is room for the moves
that it may try, ends in a placement that is valid and, as far as costs can be compared, no worse than
that of first fit: `Graph.anneal_refines_firstFit`. -/

namespace HexFabric

/-! ### The tables of an annealer -/

/-- The tables of an annealer are those of a graph, for moves of up to `most` hops. -/
structure Annealer.Suits {m : Machine} (a : Annealer m) (g : Graph) (part : Partitioning)
    (most : Nat) : Prop where
  part_eq : a.part = part
  sliceNets : part.sliceNets = .ok a.sliceNets
  pinned : a.pinned = part.slices.map fun slice => (g.location? slice.vertex).isSome
  movable : a.movable = ((g.freeSlices part).map (·.2)).toArray
  offsets : a.offsets = (Hex.disc most).toArray
  wrap : a.wrap = m.wraps Placement.wrapThreshold

section Suits

variable {g : Graph} {part : Partitioning} {m : Machine} {most : Nat} {a : Annealer m}

theorem Graph.suits_of_annealer (h : g.annealer part m most = .ok a) : a.Suits g part most := by
  obtain ⟨nets, hnets, h⟩ := bind_eq_ok.1 h
  obtain ⟨offsets, hoffsets, h⟩ := bind_eq_ok.1 h
  obtain ⟨_, rfl⟩ := Hex.discArray_eq_ok_iff.1 hoffsets
  cases h
  exact ⟨rfl, hnets, rfl, rfl, rfl, rfl⟩

/-- An annealer made for a graph can draw, if there is a slice to move. -/
theorem Annealer.Suits.drawable (h : a.Suits g part most) (hfree : g.freeSlices part ≠ [])
    (hmost : 0 < most) : a.Drawable := by
  refine ⟨by rw [h.pinned, h.part_eq, Array.size_map], fun s hs => ?_, ?_, most, hmost, h.offsets⟩
  · rw [h.movable] at hs
    obtain ⟨slice, hslice, hfree⟩ := Graph.mem_freeSlices.1 (List.mem_toArray.1 hs)
    simpa [h.pinned, hslice] using hfree
  · rw [h.movable, List.size_toArray, List.length_map]
    exact List.length_pos_of_ne_nil hfree

theorem Graph.returns_annealer (hpart : part.Sound g) (hfree : g.freeSlices part ≠ [])
    (hmost : 0 < most) (hroom : Hex.HasRoom most) :
    Returns (g.annealer part m most) fun a => a.Suits g part most ∧ a.Ready := by
  have hmade : Returns (g.annealer part m most) fun _ => True := by
    refine Ends.bind hpart.returns_sliceNets fun _ _ => ?_
    exact Ends.bind (P := fun _ => True) (returns_iff.2 ⟨_, if_pos hroom, trivial⟩) fun _ _ =>
      .pure trivial
  refine hmade.and_eq.mono ?_
  rintro a ⟨ha, _⟩
  have hsuits := suits_of_annealer ha
  have ht := hpart.returns_sliceNets.of_eq_ok hsuits.sliceNets
  obtain rfl := hsuits.part_eq
  exact ⟨hsuits, hsuits.drawable hfree hmost, ht.size, ht.lt, hpart.source, hpart.sinks⟩

end Suits

/-- There is room for the places that moves lead to at first. -/
def AnnealingConfig.Roomy (config : AnnealingConfig) (g : Grid) : Prop :=
  Hex.HasRoom (config.distanceLimit.getD (max g.width g.height))

theorem AnnealingConfig.ends_validate (config : AnnealingConfig) :
    Ends config.validate (fun e => (Failure.error e).Expected) fun _ =>
      config.distanceLimit ≠ some 0 := by
  unfold validate
  cases h : config.fault? with
  | some fault => exact .throw trivial
  | none =>
    refine .ok fun hzero => ?_
    simp only [fault?, hzero, if_true] at h
    split_ifs at h

/-! ### A run -/

namespace Annealer

variable [Build] {m : Machine} {σ : Type} [WordSource σ] {a : Annealer m}

/-- The pinned slices have the chips that `initial` has for them. -/
def Keeps (a : Annealer m) (initial : Placement) (chip : Nat → Option Chip) : Prop :=
  ∀ s : Nat, a.pinned[s]? = some true → chip s = initial.chips[s]?

/-- The books of a run are complete and in agreement, the best placement fits, and the pinned slices
are where they were at first. -/
structure Run.Sound (a : Annealer m) (initial : Placement) (r : Run m σ) : Prop where
  books : r.occupancy.Books a.part
  bearable : r.occupancy.Bearable a.part
  complete : r.occupancy.Complete a.part
  kept : a.Keeps initial r.occupancy.chipAt
  best : r.best.Fits a.part m
  best_kept : a.Keeps initial (r.best.chips[·]?)

variable {initial : Placement} {r : Run m σ}

theorem Ready.returns_proposals (ha : a.Ready) {o : Occupancy m} (h : o.Books a.part)
    (hcomplete : o.Complete a.part) {limit : Nat} (hlimit : 0 < limit) (n : Nat) (random : σ) :
    Returns (a.proposals o limit n random) fun r => ∀ p ∈ r.1, a.Admissible o p := by
  induction n generalizing random with
  | zero => exact .ok nofun
  | succ n ih =>
    rw [proposals]
    refine Ends.bind (ha.returns_propose h hcomplete hlimit random) ?_
    rintro ⟨first, random⟩ hfirst
    refine Ends.bind (ih random) ?_
    rintro ⟨rest, random⟩ hrest
    refine .pure fun p hp => ?_
    rcases List.mem_append.1 hp with hp | hp
    · exact (hfirst p (Option.mem_toList.1 hp)).admissible h
    · exact hrest p hp

omit [Build] [WordSource σ] in
theorem Run.Sound.returns_note (h : r.Sound a initial) :
    Returns (note r) (Run.Sound a initial) := by
  unfold note
  by_cases hbetter : r.cost < r.bestCost - improvement
  · rw [if_pos hbetter]
    refine Ends.bind (h.books.returns_toPlacement h.complete) ?_
    rintro p ⟨hsize, hchip⟩
    exact .pure ⟨h.books, h.bearable, h.complete, h.kept, h.books.fits h.bearable hsize hchip,
      fun s hs => (hchip s).trans (h.kept s hs)⟩
  · rw [if_neg hbetter]
    exact .pure h

omit [Build] in
theorem Ready.returns_settle (ha : a.Ready) (h : r.Sound a initial) (temperature : Float)
    {proposals : List Proposal} (hproposals : ∀ p ∈ proposals, a.Admissible r.occupancy p) :
    Returns (a.settle temperature proposals r) (Run.Sound a initial) := by
  induction proposals generalizing r with
  | nil => exact .ok h
  | cons p rest ih =>
    obtain ⟨occupancy, random, cost, best, bestCost⟩ := r
    have hp := hproposals p List.mem_cons_self
    have hrest : ∀ p ∈ rest, a.Admissible occupancy p :=
      fun p hp => hproposals p (List.mem_cons_of_mem _ hp)
    rw [settle]
    refine Ends.bind (ha.returns_delta h.books h.complete hp) fun delta _ => ?_
    obtain ⟨accepted, random⟩ := accepts temperature delta random
    cases accepted with
    | false => exact ih ⟨h.books, h.bearable, h.complete, h.kept, h.best, h.best_kept⟩ hrest
    | true =>
      refine Ends.bind (returns_commit h.books h.bearable h.complete hp) ?_
      rintro ⟨stands, occupancy'⟩ ⟨hbooks, hbear, hcomplete, hstay, hsame⟩
      have hkept : a.Keeps initial occupancy'.chipAt :=
        fun s hs => (hstay s (hp.not_mem_of_pinned hs)).trans (h.kept s hs)
      cases stands with
      | true => exact Run.Sound.returns_note ⟨hbooks, hbear, hcomplete, hkept, h.best, h.best_kept⟩
      | false =>
        refine ih ⟨hbooks, hbear, hcomplete, hkept, h.best, h.best_kept⟩ fun p hp => ?_
        exact (hrest p hp).congr (hsame rfl)

theorem Ready.returns_step (ha : a.Ready) (h : r.Sound a initial) (config : AnnealingConfig)
    (most it : Nat) : Returns (a.step config most it r) (Run.Sound a initial) := by
  have hlimit : 0 < config.limit most it :=
    Nat.lt_of_lt_of_le Nat.zero_lt_one (Nat.le_max_right _ _)
  unfold step
  refine Ends.bind (ha.returns_proposals h.books h.complete hlimit config.candidates r.random) ?_
  rintro ⟨proposals, random⟩ hproposals
  exact ha.returns_settle (r := { r with random })
    ⟨h.books, h.bearable, h.complete, h.kept, h.best, h.best_kept⟩ (config.temperature it)
    hproposals

/-- Every run keeps what its steps keep. -/
theorem Ready.returns_run (ha : a.Ready) (h : r.Sound a initial) (config : AnnealingConfig)
    (clock : Nat → Nat) (most remaining : Nat) :
    Returns (a.run config clock most remaining r) (Run.Sound a initial) := by
  induction remaining generalizing r with
  | zero => exact .ok h
  | succ remaining ih =>
    rw [run]
    by_cases hexpired : config.expired clock (config.iterations - (remaining + 1))
    · rw [if_pos hexpired]
      exact .pure h
    · rw [if_neg hexpired]
      exact Ends.bind (ha.returns_step h config most _) fun _ hr => ih hr

end Annealer

/-! ### Placing -/

namespace Placement

/-- The cost is the same on machines with the same links. -/
theorem cost_congr {m n : Machine} (h : m.SameLinks n) (p : Placement) (part : Partitioning) :
    p.cost part m = p.cost part n := by
  unfold cost
  rw [h.wraps_eq, h.toGrid]

theorem Fits.returns_cost {g : Graph} {part : Partitioning} {m : Machine} {p : Placement}
    (h : p.Fits part m) (hpart : part.Sound g) :
    Returns (p.cost part m) fun _ => True := by
  refine Ends.foldlM (fun _ _ => True) trivial fun n hn _ sum _ => ?_
  have hterminals : ∀ s ∈ n.source :: n.sinks, Returns (p.chipOf s) fun _ => True := by
    intro s hs
    exact (h.returns_chipOf (hpart.terminals_lt (Array.mem_toList_iff.1 hn) hs)).mono
      fun _ _ => trivial
  exact Ends.bind (SlicedNet.returns_cost hterminals) fun _ _ => .pure trivial

/-- `p` is `initial`, or does not cost more. -/
def NoWorse (p : Placement) (part : Partitioning) (m : Machine) (initial : Placement) : Prop :=
  p = initial ∨ ∃ before after, initial.cost part m = .ok before ∧ p.cost part m = .ok after ∧
    ¬before < after

end Placement

namespace Graph

variable {g : Graph} {part : Partitioning} {m : Machine}

/-- Nothing can move, or nothing would be gained by it, so no table of moves is made. -/
def Idle (g : Graph) (part : Partitioning) (m : Machine) : Prop :=
  g.freeSlices part = [] ∨ part.nets.size = 0 ∨ m.liveChips.length < 2

theorem Idle.congr {n : Machine} (h : m.SameChips n) : g.Idle part m ↔ g.Idle part n := by
  rw [Idle, Idle, h.liveChips_eq]

/-- Improving leads to a placement that fits, keeps to the pins and does not cost more. -/
theorem returns_improve [Build] {σ : Type} [WordSource σ] (hpart : part.Sound g)
    (hsize : m.size < 2 ^ 32) {config : AnnealingConfig} (hlimit : config.distanceLimit ≠ some 0)
    (hroom : g.Idle part m ∨ config.Roomy m.toGrid) (clock : Nat → Nat) (random : σ)
    {initial : Placement} (hinitial : initial.Fits part m) (hpinned : initial.Pinned g part) :
    Returns (g.improve part m config clock random initial) fun p =>
      p.Fits part m ∧ p.Pinned g part ∧ p.NoWorse part m initial := by
  unfold improve
  extract_lets jp
  by_cases hidle : g.freeSlices part = [] ∨ part.nets.size = 0 ∨ m.liveChips.length < 2
  · rw [if_pos hidle]
    exact .pure ⟨hinitial, hpinned, .inl rfl⟩
  rw [if_neg hidle]
  have hroom : config.Roomy m.toGrid := hroom.resolve_left hidle
  rw [not_or] at hidle
  have hmost : 0 < config.distanceLimit.getD (max m.width m.height) := by
    cases hd : config.distanceLimit with
    | none => exact Nat.lt_of_lt_of_le m.valid.width_pos (Nat.le_max_left _ _)
    | some d =>
      rw [hd] at hlimit
      exact Nat.pos_of_ne_zero fun h0 => hlimit (congrArg some h0)
  refine Ends.bind (returns_annealer hpart hidle.1 hmost hroom) ?_
  rintro a ⟨hsuits, ha⟩
  obtain rfl := hsuits.part_eq
  refine Ends.bind (hinitial.returns_ofPlacement hsize) ?_
  rintro occupancy ⟨hbooks, hcomplete, hbear, hchip⟩
  refine Ends.bind (hinitial.returns_cost hpart).and_eq fun before hbefore => ?_
  refine Ends.bind (ha.returns_run ⟨hbooks, hbear, hcomplete, fun s _ => hchip s, hinitial,
    fun _ _ => rfl⟩ config clock _ config.iterations) fun last hlast => ?_
  refine Ends.bind (hlast.best.returns_cost hpart).and_eq fun after hafter => ?_
  by_cases hworse : before < after
  · rw [if_pos hworse]
    exact .pure ⟨hinitial, hpinned, .inl rfl⟩
  · rw [if_neg hworse]
    refine .pure ⟨hlast.best, fun s slice c hslice hc => ?_, .inr ⟨before, after, hbefore.1,
      hafter.1, hworse⟩⟩
    have hpin : a.pinned[s]? = some true := by simp [hsuits.pinned, hslice, hc]
    exact (hlast.best_kept s hpin).trans (hpinned s slice c hslice hc)

/-- Without room for the places that moves lead to, improving meets a defect. -/
theorem improve_eq_tooLarge [Build] {σ : Type} [WordSource σ] (hpart : part.Sound g)
    (hbusy : ¬g.Idle part m) {config : AnnealingConfig} (hroom : ¬config.Roomy m.toGrid)
    (clock : Nat → Nat) (random : σ) (initial : Placement) : g.improve part m config clock random initial = .error .tooLarge := by
  obtain ⟨nets, hnets, _⟩ := returns_iff.1 hpart.returns_sliceNets
  have hannealer : g.annealer part m (config.distanceLimit.getD (max m.width m.height)) =
      .error .tooLarge := by
    have hdisc : Hex.discArray (config.distanceLimit.getD (max m.width m.height)) =
        .error .tooLarge := if_neg hroom
    unfold annealer
    rw [hnets, hdisc]
    rfl
  unfold improve
  unfold Idle at hbusy
  rw [if_neg hbusy]
  dsimp only
  rw [hannealer]
  rfl

/-- Annealing improves what first fit leads to. -/
theorem anneal_eq [Build] (g : Graph) (part : Partitioning) (m : Machine) {config : AnnealingConfig}
    (hconfig : config.validate = .ok ()) (clock : Nat → Nat) :
    g.anneal part m config clock = g.firstFit part m >>= fun initial =>
      liftM (g.improve part (g.usable m) config clock (Cipher.Stream.ofSeed config.seed) initial) := by
  unfold anneal
  rw [hconfig]
  rfl

theorem ends_anneal [Build] (hpart : part.Sound g) (hsize : m.size < 2 ^ 32)
    {config : AnnealingConfig} (hroom : g.Idle part m ∨ config.Roomy m.toGrid) (clock : Nat → Nat) :
    Ends (g.anneal part m config clock) Failure.Expected fun p => p.Fits part (g.usable m) := by
  unfold anneal
  refine Ends.bind (.liftError config.ends_validate) fun _ hlimit => ?_
  have hsame := (g.sameLinks_usable m).toSameChips
  refine Ends.bind (ends_firstFit hpart hsize) ?_
  rintro initial ⟨hinitial, hpinned⟩
  have hroom : g.Idle part (g.usable m) ∨ config.Roomy (g.usable m).toGrid :=
    hroom.imp (Idle.congr hsame).2 fun hroom => hsame.toGrid ▸ hroom
  exact (returns_improve hpart (hsame.size_eq ▸ hsize) hlimit hroom clock _ hinitial
    hpinned).lift.mono fun _ hp => hp.1

/-- Three chips in a ring, with two cores each. -/
def ringOfThree : Machine where
  toBlueprint := { Blueprint.uniform ⟨3, 1, .torus⟩ with
    resources := SortedMap.empty.insert .cores 2 }
  valid := Blueprint.fault?_eq_none_iff.1 (by decide +kernel)

/-- A chain of three vertices, the first of them pinned, with a core of each chip withheld. -/
def chain : Graph where
  vertices := [⟨"head", 1, SortedMap.empty.insert .cores 1, 1, none⟩,
    ⟨"body", 1, SortedMap.empty.insert .cores 1, 1, none⟩,
    ⟨"tail", 1, SortedMap.empty.insert .cores 1, 1, none⟩]
  nets := [⟨0, [1], .one⟩, ⟨1, [2], .one⟩]
  locations := .ofList [(0, ⟨2, 0⟩)]
  endpoints := .empty
  reservations := [⟨SortedMap.empty.insert .cores 1, none⟩]

def chainPart : Partitioning where
  slices := #[⟨0, 0, 1, SortedMap.empty.insert .cores 1⟩,
    ⟨1, 0, 1, SortedMap.empty.insert .cores 1⟩, ⟨2, 0, 1, SortedMap.empty.insert .cores 1⟩]
  ranges := #[(0, 1), (1, 2), (2, 3)]
  nets := #[⟨0, [1], .one, 0⟩, ⟨1, [2], .one, 1⟩]

theorem firstFit_chain :
    chain.firstFit chainPart ringOfThree = .ok ⟨#[⟨2, 0⟩, ⟨0, 0⟩, ⟨1, 0⟩]⟩ := by
  unfold firstFit
  extract_lets usable chips
  rw [byDemand_of_pairwise (by decide +kernel)]
  cbv

end Graph

/-- There is room for what a strategy has to note. -/
def Strategy.Roomy : Strategy → Grid → Prop
  | firstFit, _ => True
  | annealing config, g => config.Roomy g

/-- Placing ends in an error of the input or in a placement that fits, whatever the strategy. -/
theorem Strategy.ends_place [Build] {g : Graph} {part : Partitioning} (hpart : part.Sound g)
    {m : Machine} (hsize : m.size < 2 ^ 32) {strategy : Strategy} (hroom : strategy.Roomy m.toGrid)
    (clock : Nat → Nat) :
    Ends (strategy.place g part m clock) Failure.Expected fun p => p.Fits part (g.usable m) := by
  unfold place
  extract_lets check
  have hcheck : ∀ p, p.Fits part (g.usable m) →
      Ends (check p) Failure.Expected fun p => p.Fits part (g.usable m) := by
    intro p hp
    have husable : (g.usable m).size < 2 ^ 32 := (g.sameLinks_usable m).size_eq ▸ hsize
    refine Ends.bind (p.returns_isValid part husable).lift fun valid hvalid => ?_
    rw [if_pos (hvalid.2 hp)]
    exact .pure hp
  cases strategy with
  | firstFit => exact Ends.bind (Graph.ends_firstFit hpart hsize) fun p hp => hcheck p hp.1
  | annealing config => exact Ends.bind (Graph.ends_anneal hpart hsize (.inr hroom) clock) hcheck

/-- A placement is checked before it is returned, so it fits, however it was found. -/
theorem Strategy.fits_of_place [Build] {g : Graph} {part : Partitioning} {m : Machine}
    (hsize : m.size < 2 ^ 32) {strategy : Strategy} {clock : Nat → Nat} {p : Placement}
    (h : strategy.place g part m clock = .ok p) : p.Fits part (g.usable m) := by
  unfold place at h
  extract_lets check at h
  have hcheck : ∀ found, check found = .ok p → p.Fits part (g.usable m) := by
    intro found hfound
    have husable : (g.usable m).size < 2 ^ 32 := (g.sameLinks_usable m).size_eq ▸ hsize
    obtain ⟨valid, hvalid, hfound⟩ := bind_eq_ok.1 hfound
    cases valid with
    | false => cases hfound
    | true =>
      cases hfound
      exact (Placement.isValid_eq_ok_iff husable).1 (liftM_checked_eq_ok.1 hvalid)
  cases strategy with
  | firstFit =>
    obtain ⟨found, _, hfound⟩ := bind_eq_ok.1 h
    exact hcheck found hfound
  | annealing config =>
    obtain ⟨found, _, hfound⟩ := bind_eq_ok.1 h
    exact hcheck found hfound

end HexFabric
