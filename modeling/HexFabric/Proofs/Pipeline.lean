import HexFabric.Pipeline
import HexFabric.Proofs.Key.Allocation
import HexFabric.Proofs.Packet
import HexFabric.Proofs.Placement.Annealing
import HexFabric.Proofs.Route.Net

/-! The whole run. If words can count the chips, and there is room for the moves of annealing, it ends
in an error of the input or in an output, never at a defect: `Graph.mapOnto_ends`. In an output, every
net has a tree that its packets follow to their destinations: `Graph.mapOnto_delivers`. -/

namespace HexFabric

namespace Config

/-- The machine that a graph may use. -/
def usable (c : Config) (m : Machine) : Machine :=
  if c.reserveMonitor then m.reserve monitorCore none else m

theorem sameChips_usable (c : Config) (m : Machine) : (c.usable m).SameChips m := by
  unfold usable
  split
  · exact (m.sameLinks_reserve monitorCore none).toSameChips
  · exact ⟨rfl, rfl⟩

end Config

theorem Strategy.ends_validate (s : Strategy) :
    Ends s.validate (fun e => (Failure.error e).Expected) fun _ => True := by
  cases s with
  | firstFit => exact .ok trivial
  | annealing config => exact config.ends_validate.mono fun _ _ => trivial

theorem Config.ends_validate (c : Config) :
    Ends c.validate (fun e => (Failure.error e).Expected) fun _ => True :=
  c.strategy.ends_validate.bind fun _ _ => c.keys.ends_validate.mono fun _ _ => trivial

/-! ### The trees of a run -/

section Trees

variable {g : Graph} {part : Partitioning} {p : Placement} {m : Machine} {keys : KeyAssignment}
  {trees : List RoutingTree}

theorem Graph.AllRouted.net (h : g.AllRouted part p m trees) {t : RoutingTree} (ht : t ∈ trees) :
    ∃ n, trees[t.net]? = some t ∧ part.nets[t.net]? = some n ∧ g.Routed part p m n t := by
  obtain ⟨i, hi⟩ := List.mem_iff_getElem?.1 ht
  obtain ⟨⟨n, j⟩, he, hnet, hrouted⟩ := exists_left h hi
  rw [List.getElem?_zipIdx, Option.map_eq_some_iff] at he
  obtain ⟨n', hn', heq⟩ := he
  rw [Nat.zero_add, Prod.mk.injEq] at heq
  obtain ⟨rfl, rfl⟩ := heq
  rw [hnet]
  exact ⟨n', hi, by rw [← Array.getElem?_toList]; exact hn', hrouted⟩

theorem Graph.AllRouted.tree (h : g.AllRouted part p m trees) {i : Nat} {n : SlicedNet}
    (hn : part.nets[i]? = some n) : ∃ t ∈ trees, t.net = i ∧ g.Routed part p m n t := by
  have he : part.nets.toList.zipIdx[i]? = some (n, i) := by
    rw [List.getElem?_zipIdx, Array.getElem?_toList, hn, Option.map_some, Nat.zero_add]
  obtain ⟨t, ht, hnet, hrouted⟩ := exists_right h he
  exact ⟨t, List.mem_of_getElem? ht, hnet, hrouted⟩

/-- The trees of a run share no packets. -/
theorem Graph.AllRouted.unshared (h : g.AllRouted part p m trees) (hpart : part.Sound g)
    (hp : p.Placed part m) (hkeys : part.Numbered p keys) : Unshared trees keys := by
  have hsource : ∀ n ∈ part.nets, ∃ c, p.chips[n.source]? = some c := by
    intro n hn
    obtain ⟨c, hc, _⟩ := hp.exists_chip (hpart.source n hn)
    exact ⟨c, hc⟩
  refine ⟨fun t ht => ?_, fun s hs t ht hne j k hj hk w hw => ?_, fun t ht a ha b hb hab => ?_⟩
  · obtain ⟨n, _, hn, _⟩ := h.net ht
    rw [hkeys.size]
    exact (Array.getElem?_eq_some_iff.1 hn).1
  · obtain ⟨_, hs', _⟩ := h.net hs
    obtain ⟨_, ht', _⟩ := h.net ht
    have hj : keys.keys[s.net]? = some j := fetch_eq_ok.1 hj
    have hk : keys.keys[t.net]? = some k := fetch_eq_ok.1 hk
    rcases Nat.lt_trichotomy s.net t.net with hlt | heq | hlt
    · exact hkeys.apart hsource hlt hj hk w hw
    · rw [heq, ht'] at hs'
      cases hs'
      exact hne rfl
    · exact hkeys.apart hsource hlt hk hj w hw.symm
  · obtain ⟨n, _, _, c, ds, _, hserves, _⟩ := h.net ht
    obtain ⟨i, hi⟩ := Array.mem_iff_getElem?.1 ha
    obtain ⟨j, hj⟩ := Array.mem_iff_getElem?.1 hb
    have hij := hserves.distinct i j a.chip _ _ ⟨a, hi, rfl, rfl⟩ ⟨b, hj, hab.symm, rfl⟩
    rw [hij, hj] at hi
    cases hi
    rfl

end Trees

/-! ### The outcome -/

/-- What a run has made when only tables are missing. -/
structure Draft where
  part : Partitioning
  placement : Placement
  keys : KeyAssignment
  trees : List RoutingTree

namespace Draft

structure Sound (g : Graph) (m : Machine) (d : Draft) : Prop where
  part : d.part.Sound g
  placed : d.placement.Placed d.part m
  numbered : d.part.Numbered d.placement d.keys
  routed : g.AllRouted d.part d.placement m d.trees

theorem Sound.unshared {g : Graph} {m : Machine} {d : Draft} (h : d.Sound g m) :
    Unshared d.trees d.keys :=
  h.routed.unshared h.part h.placed h.numbered

def output (d : Draft) (tables : RoutingTables) : Output :=
  ⟨d.part.slices, d.part.nets, d.placement, d.keys, tables⟩

end Draft

/-- A run up to the tables. The options for tables have no part in it. -/
def Graph.draft [Build] (g : Graph) (m : Machine) (config : Config) (clock : Nat → Nat) :
    Outcome Draft := do
  config.validate
  let part ← g.partition (config.usable m)
  let placement ← config.strategy.place g part (config.usable m) clock
  let keys ← part.allocateKeys placement m config.keys
  let trees ← g.route part placement m
  return ⟨part, placement, keys, trees⟩

theorem Graph.mapOnto_eq [Build] (g : Graph) (m : Machine) (config : Config) (clock : Nat → Nat) :
    g.mapOnto m config clock = (do
      let d ← g.draft m config clock
      return d.output (← RoutingTables.build d.trees d.keys m config.tables)) := by
  unfold mapOnto draft
  simp only [bind_assoc, pure_bind]
  rfl

theorem Graph.mapOnto_eq_ok [Build] {g : Graph} {m : Machine} {config : Config}
    {clock : Nat → Nat} {out : Output} : g.mapOnto m config clock = .ok out ↔
      ∃ d, g.draft m config clock = .ok d ∧
        ∃ tables, RoutingTables.build d.trees d.keys m config.tables = .ok tables ∧
          d.output tables = out := by
  simp only [mapOnto_eq, bind_eq_ok, pure_eq_ok]

/-! ### Drafts -/

/-- A placement that fits what is left of a machine is one on the machine. -/
theorem Graph.placed_of_fits {g : Graph} {m : Machine} {config : Config} {part : Partitioning}
    {p : Placement} (h : p.Fits part (g.usable (config.usable m))) : p.Placed part m :=
  (h.toPlaced.of_sameChips (g.sameLinks_usable _).toSameChips).of_sameChips
    (config.sameChips_usable m)

section Drafts

variable [Build] {g : Graph} {m : Machine} {config : Config} {clock : Nat → Nat} {d : Draft}

theorem Graph.draft_eq_ok : g.draft m config clock = .ok d ↔
    config.validate = .ok () ∧ g.partition (config.usable m) = .ok d.part ∧
      config.strategy.place g d.part (config.usable m) clock = .ok d.placement ∧
      d.part.allocateKeys d.placement m config.keys = .ok d.keys ∧
      g.route d.part d.placement m = .ok d.trees := by
  obtain ⟨part, placement, keys, trees⟩ := d
  unfold draft
  simp only [bind_eq_ok, liftM_eq_ok, pure_eq_ok, Draft.mk.injEq]
  constructor
  · rintro ⟨_, hconfig, _, hpart, _, hplace, _, hkeys, _, hroute, rfl, rfl, rfl, rfl⟩
    exact ⟨hconfig, hpart, hplace, hkeys, hroute⟩
  · rintro ⟨hconfig, hpart, hplace, hkeys, hroute⟩
    exact ⟨(), hconfig, part, hpart, placement, hplace, keys, hkeys, trees, hroute, rfl, rfl, rfl,
      rfl⟩

theorem Graph.ends_draft (g : Graph) (hsize : m.size < 2 ^ 32)
    (hroom : config.strategy.Roomy m.toGrid) (clock : Nat → Nat) :
    Ends (g.draft m config clock) Failure.Expected (Draft.Sound g m) := by
  have hsame := config.sameChips_usable m
  unfold draft
  refine Ends.bind (.liftError config.ends_validate) fun _ _ => ?_
  refine Ends.bind (g.ends_partition (config.usable m)) fun part hpart => ?_
  refine Ends.bind (config.strategy.ends_place hpart (hsame.size_eq ▸ hsize)
    (hsame.toGrid ▸ hroom) clock) fun p hp => ?_
  have hplaced : p.Placed part m := placed_of_fits hp
  refine Ends.bind (Partitioning.ends_allocateKeys hsize
    (fun n hn => hplaced.returns_chipOf (hpart.source n hn)) config.keys) fun keys hkeys => ?_
  refine Ends.bind (g.ends_route hpart hsize hplaced) fun trees htrees => ?_
  exact .pure ⟨hpart, hplaced, hkeys, htrees⟩

/-- Where nets have keys, words can count the chips, so no more need be asked of the machine. -/
theorem Draft.sound_of_nets (h : g.draft m config clock = .ok d) (hnets : d.part.nets.size ≠ 0) :
    d.Sound g m := by
  obtain ⟨_, hpart, hplace, hkeys, hroute⟩ := Graph.draft_eq_ok.1 h
  have hpart : d.part.Sound g := (g.ends_partition _).of_eq_ok hpart
  have hsize : m.size < 2 ^ 32 := Partitioning.size_lt_of_allocateKeys hkeys hnets
  have husable : (config.usable m).size < 2 ^ 32 := (config.sameChips_usable m).size_eq ▸ hsize
  have hplaced : d.placement.Placed d.part m :=
    Graph.placed_of_fits (Strategy.fits_of_place husable hplace)
  exact ⟨hpart, hplaced, (Partitioning.ends_allocateKeys hsize
    (fun n hn => hplaced.returns_chipOf (hpart.source n hn)) config.keys).of_eq_ok hkeys,
    (g.ends_route hpart hsize hplaced).of_eq_ok hroute⟩

/-- A draft has trees only if it has nets. -/
theorem Draft.sound_of_mem (h : g.draft m config clock = .ok d) {t : RoutingTree}
    (ht : t ∈ d.trees) : d.Sound g m := by
  refine sound_of_nets h fun hnets => ?_
  obtain ⟨_, _, _, _, hroute⟩ := Graph.draft_eq_ok.1 h
  have hnil : d.part.nets = #[] := Array.eq_empty_of_size_eq_zero hnets
  have hnone : g.route d.part d.placement m = .ok [] := by
    unfold Graph.route
    rw [hnil]
    rfl
  rw [← Except.ok.inj (hnone.symm.trans hroute)] at ht
  cases ht

theorem Draft.unshared (h : g.draft m config clock = .ok d) : Unshared d.trees d.keys where
  net_lt t ht := (sound_of_mem h ht).unshared.net_lt t ht
  apart t ht := (sound_of_mem h ht).unshared.apart t ht
  distinct t ht := (sound_of_mem h ht).unshared.distinct t ht

end Drafts

/-! ### The end of a run -/

theorem Graph.ends_mapOnto [Build] (g : Graph) {m : Machine} (hsize : m.size < 2 ^ 32)
    {config : Config} (hroom : config.strategy.Roomy m.toGrid) (clock : Nat → Nat) :
    Ends (g.mapOnto m config clock) Failure.Expected fun _ => True := by
  rw [mapOnto_eq]
  refine Ends.bind (g.ends_draft hsize hroom clock) fun d hd => ?_
  exact Ends.bind (hd.unshared.ends_build m config.tables) fun _ _ => .pure trivial

/-- On a machine whose chips words can count, and with room for the places to which moves of annealing
lead, a run ends in an output or in an error, whatever the graph and the other options. The error is
neither that nets with one key part ways nor one of files. No assertion fails. Every random number is
drawn, since `WordSource.drawUpper` tries so many words and no more. -/
theorem Graph.mapOnto_ends [Build] (g : Graph) {m : Machine} (hsize : m.size < 2 ^ 32)
    {config : Config} (hroom : config.strategy.Roomy m.toGrid) (clock : Nat → Nat) :
    (∃ out, g.mapOnto m config clock = .ok out) ∨
      ∃ e, g.mapOnto m config clock = .error (.error e) ∧
        (∀ key mask c, e ≠ .multisourceRoute key mask c) ∧ ∀ fault, e ≠ .io fault := by
  have hends := g.ends_mapOnto hsize hroom clock
  cases hout : g.mapOnto m config clock with
  | ok out => exact .inl ⟨out, rfl⟩
  | error f =>
    have hexpected : f.Expected := hends.of_eq_error hout
    cases f with
    | defect d => exact hexpected.elim
    | error e =>
      refine .inr ⟨e, rfl, ?_, ?_⟩
      · rintro key mask c rfl
        exact hexpected
      · rintro fault rfl
        exact hexpected

/-- A row of three chips. -/
def row : Machine where
  toBlueprint := Blueprint.uniform ⟨3, 1, .mesh⟩
  valid := Blueprint.fault?_eq_none_iff.1 (by decide +kernel)

def oneCore : Resources := SortedMap.empty.insert .cores 1

/-- A flow that may start and end anywhere. -/
def looseGraph : Graph where
  vertices := [⟨"sensor", 1, oneCore, 1, none⟩, ⟨"filter", 1, oneCore, 1, none⟩]
  nets := [⟨0, [1], .one⟩]
  locations := .empty
  endpoints := .empty
  reservations := []

theorem Graph.mapOnto_ends_row :
    row.size < 2 ^ 32 ∧ ({} : Config).strategy.Roomy row.toGrid ∧
    ∀ clock, (∃ out, looseGraph.mapOnto row {} clock = .ok out) ∨
      ∃ e, looseGraph.mapOnto row {} clock = .error (.error e) ∧
        (∀ key mask c, e ≠ .multisourceRoute key mask c) ∧ ∀ fault, e ≠ .io fault := by
  have hsize : row.size < 2 ^ 32 := by decide
  have hroom : ({} : Config).strategy.Roomy row.toGrid := by
    show Hex.HasRoom 3
    decide
  exact ⟨hsize, hroom, fun clock => Graph.mapOnto_ends looseGraph hsize hroom clock⟩

def loosePart : Partitioning where
  slices := #[⟨0, 0, 1, oneCore⟩, ⟨1, 0, 1, oneCore⟩]
  ranges := #[(0, 1), (1, 2)]
  nets := #[⟨0, [1], .one, 0⟩]

theorem partition_loose : looseGraph.partition row = .ok loosePart := by
  cbv

theorem firstFit_loose : looseGraph.firstFit loosePart row = .ok ⟨#[⟨0, 0⟩, ⟨0, 0⟩]⟩ := by
  unfold Graph.firstFit
  extract_lets usable chips
  rw [Graph.byDemand_of_pairwise (by decide +kernel)]
  cbv

/-- The places within so many hops can be counted, but there are no addresses for them. -/
def farConfig : AnnealingConfig := { distanceLimit := some 500000000 }

/-- Moves of so many hops stop a run on a machine of three chips. -/
theorem Graph.mapOnto_fails_far :
    row.size < 2 ^ 32 ∧ farConfig.validate = .ok () ∧ Hex.discSize 500000000 < 2 ^ 64 ∧
    ∀ clock, looseGraph.mapOnto row { strategy := .annealing farConfig } clock =
      .error (.defect .tooLarge) := by
  have hconfig : farConfig.validate = .ok () := rfl
  refine ⟨by decide, hconfig, by decide, fun clock => ?_⟩
  have hpart : loosePart.Sound looseGraph := (looseGraph.ends_partition row).of_eq_ok partition_loose
  have hbusy : ¬looseGraph.Idle loosePart (looseGraph.usable row) := by
    unfold Idle
    decide
  have hroom : ¬farConfig.Roomy (looseGraph.usable row).toGrid := by
    show ¬Hex.HasRoom 500000000
    decide
  have himprove : looseGraph.improve loosePart (looseGraph.usable row) farConfig clock
      (Cipher.Stream.ofSeed farConfig.seed) ⟨#[⟨0, 0⟩, ⟨0, 0⟩]⟩ = .error .tooLarge :=
    improve_eq_tooLarge hpart hbusy hroom clock _ _
  have hanneal : looseGraph.anneal loosePart row farConfig clock = .error (.defect .tooLarge) := by
    rw [anneal_eq looseGraph loosePart row hconfig, firstFit_loose]
    exact congrArg (liftM : Checked Placement → Outcome Placement) himprove
  have hplace : (Strategy.annealing farConfig).place looseGraph loosePart row clock =
      .error (.defect .tooLarge) := by
    unfold Strategy.place
    dsimp only
    rw [hanneal]
    rfl
  unfold mapOnto
  dsimp only
  rw [if_neg Bool.false_ne_true, partition_loose]
  change (Strategy.place _ _ _ _ _ >>= _) = _
  rw [hplace]
  rfl

/-! ### Deliveries -/

/-- Slice `s` is on chip `c`, for the device on link `l` if there is one, or else for the cores. -/
def Output.Hosts (g : Graph) (out : Output) (s : Nat) (c : Chip) (l : Option Link) : Prop :=
  ∃ slice, out.slices[s]? = some slice ∧ out.placement.chips[s]? = some c ∧
    g.endpoint? slice.vertex = l

/-- Slice `s` takes its packets at a destination. -/
def Output.TakesAt (g : Graph) (out : Output) (s : Nat) : Destination → Prop
  | .cores c => out.Hosts g s c none
  | .device c l => out.Hosts g s c (some l)

theorem Output.destination_eq_ok_iff {g : Graph} {out : Output} {part : Partitioning} {s : Nat}
    {d : Destination} (hslices : out.slices = part.slices) :
    g.destination part out.placement s = .ok d ↔ out.TakesAt g s d := by
  constructor
  · intro hd
    obtain ⟨c, hc, hd⟩ := bind_eq_ok.1 hd
    obtain ⟨slice, hslice, hd⟩ := bind_eq_ok.1 hd
    rw [fetch_eq_ok, ← hslices] at hslice
    have hc : out.placement.chips[s]? = some c := fetch_eq_ok.1 hc
    cases hend : g.endpoint? slice.vertex with
    | none =>
      rw [hend] at hd
      cases hd
      exact ⟨slice, hslice, hc, hend⟩
    | some l =>
      rw [hend] at hd
      cases hd
      exact ⟨slice, hslice, hc, hend⟩
  · intro htakes
    cases d with
    | cores c =>
      obtain ⟨slice, hslice, hc, hend⟩ := htakes
      rw [hslices] at hslice
      refine bind_eq_ok.2 ⟨c, fetch_eq_ok.2 hc, bind_eq_ok.2 ⟨slice, fetch_eq_ok.2 hslice, ?_⟩⟩
      rw [hend]
      rfl
    | device c l =>
      obtain ⟨slice, hslice, hc, hend⟩ := htakes
      rw [hslices] at hslice
      refine bind_eq_ok.2 ⟨c, fetch_eq_ok.2 hc, bind_eq_ok.2 ⟨slice, fetch_eq_ok.2 hslice, ?_⟩⟩
      rw [hend]
      rfl

/-- The chip of the source of a net has an entry for the packets of the net. Such a packet comes to
no chip twice and to an end, and goes where the sinks of the net are: it is delivered, once each, to
the cores of chips with a sink of cores, and leaves, once each, on the links of chips with a sink of
devices there. Only links that lead to no live chip may be those of devices. -/
theorem Graph.mapOnto_delivers [Build] {g : Graph} {m : Machine} {config : Config} {clock : Nat → Nat}
    {out : Output} (hout : g.mapOnto m config clock = .ok out)
    (hends : ∀ s c l, out.Hosts g s c (some l) → m.hop c l = none) {i : Nat} {n : SlicedNet}
    (hn : out.nets[i]? = some n) :
    ∃ key source, out.keys.keyOf i = .ok key ∧ out.placement.chipOf n.source = .ok source ∧
      (∃ e ∈ out.tables.tableAt source, e.pattern.accepts key.key) ∧
      ∀ hops, m.size ≤ hops → (journey m out.tables key.key hops source none).Nodup ∧
        (∀ c, .expire c ∉ journey m out.tables key.key hops source none) ∧
        (∀ c, .deliver c ∈ journey m out.tables key.key hops source none ↔
          ∃ s ∈ n.sinks, out.Hosts g s c none) ∧
        ∀ c l, .emit c l ∈ journey m out.tables key.key hops source none ↔
          ∃ s ∈ n.sinks, out.Hosts g s c (some l) := by
  obtain ⟨d, hdraft, tables, hbuild, rfl⟩ := mapOnto_eq_ok.1 hout
  have hi : i < d.part.nets.size := (Array.getElem?_eq_some_iff.1 hn).1
  have hsound : d.Sound g m := Draft.sound_of_nets hdraft (Nat.ne_zero_of_lt hi)
  have hunshared := hsound.unshared
  obtain ⟨t, ht, hnet, source, ds, hsource, hserves, hds⟩ := hsound.routed.tree hn
  obtain ⟨key, hkey⟩ : ∃ key, d.keys.keyOf i = .ok key := by
    rw [← hsound.numbered.size] at hi
    exact ⟨_, fetch_eq_ok.2 (Array.getElem?_eq_getElem hi)⟩
  have hself := Pattern.accepts_of_self key.key key.mask
  have hkeyt : d.keys.keyOf t.net = .ok key := hnet.symm ▸ hkey
  refine ⟨key, source, hkey, fetch_eq_ok.2 hsource, ?_, fun hops hhops => ?_⟩
  · obtain ⟨root, hroot, hchip, harrived⟩ := hserves.root
    rw [← hchip]
    exact hunshared.exists_entry hbuild ht hkeyt (Array.mem_of_getElem? hroot) hself harrived
  have hsink : ∀ e, e ∈ ds ↔ ∃ s ∈ n.sinks, (d.output tables).TakesAt g s e := by
    intro e
    rw [hds e]
    refine exists_congr fun s => and_congr_right fun _ => ?_
    exact @Output.destination_eq_ok_iff g (d.output tables) d.part s e rfl
  obtain ⟨hnodup, hexpire, hdeliver, hemit⟩ := hserves.journey
    (fun k hk => hunshared.forward_eq hbuild ht hkeyt hk hself)
    (fun c l he => by
      obtain ⟨s, _, hhosts⟩ := (hsink _).1 he
      exact hends s c l hhosts) hhops
  exact ⟨hnodup, hexpire, fun c => (hdeliver c).trans (hsink _),
    fun c l => (hemit c l).trans (hsink _)⟩

/-- A flow from one end of the row to the cores of the other end and to a device there. -/
def rowGraph : Graph where
  vertices := [⟨"sensor", 1, oneCore, 1, none⟩, ⟨"filter", 1, oneCore, 1, none⟩,
    ⟨"motor", 1, .none, 1, none⟩]
  nets := [⟨0, [1, 2], .one⟩]
  locations := .ofList [(0, ⟨0, 0⟩), (1, ⟨2, 0⟩), (2, ⟨2, 0⟩)]
  endpoints := .ofList [(2, .east)]
  reservations := []

def rowConfig : Config := { strategy := .firstFit, tables := { elide := true } }

/-- The chip in the middle has no table. -/
def rowOutput : Output where
  slices := #[⟨0, 0, 1, oneCore⟩, ⟨1, 0, 1, oneCore⟩, ⟨2, 0, 1, .none⟩]
  nets := #[⟨0, [1, 2], .one, 0⟩]
  placement := ⟨#[⟨0, 0⟩, ⟨2, 0⟩, ⟨2, 0⟩]⟩
  keys := ⟨⟨2, 0, 0⟩, #[⟨0, 3⟩]⟩
  tables := .ofList [(⟨0, 0⟩, [⟨⟨0, 3⟩, ⟨1⟩⟩]), (⟨2, 0⟩, [⟨⟨0, 3⟩, ⟨65⟩⟩])]

theorem mapOnto_row : rowGraph.mapOnto row rowConfig (fun _ => 0) = .ok rowOutput := by
  cbv

theorem hop_of_hosts_row (s : Nat) (c : Chip) (l : Link)
    (h : rowOutput.Hosts rowGraph s c (some l)) : row.hop c l = none := by
  obtain ⟨slice, hslice, hchip, hend⟩ := h
  have hs : s < 3 := (Array.getElem?_eq_some_iff.1 hslice).1
  match s with
  | 0 => cases hslice; cases hend
  | 1 => cases hslice; cases hend
  | 2 =>
    cases hslice
    cases hchip
    cases hend
    decide +kernel

theorem Graph.mapOnto_delivers_row :
    rowGraph.mapOnto row rowConfig (fun _ => 0) = .ok rowOutput ∧
    (∀ s c l, rowOutput.Hosts rowGraph s c (some l) → row.hop c l = none) ∧
    rowOutput.nets[0]? = some ⟨0, [1, 2], .one, 0⟩ ∧
    (journey row rowOutput.tables 0 3 ⟨0, 0⟩ none).Nodup ∧
    .deliver ⟨2, 0⟩ ∈ journey row rowOutput.tables 0 3 ⟨0, 0⟩ none ∧
    .emit ⟨2, 0⟩ .east ∈ journey row rowOutput.tables 0 3 ⟨0, 0⟩ none := by
  refine ⟨mapOnto_row, hop_of_hosts_row, rfl, ?_⟩
  obtain ⟨key, source, hkey, hsource, _, hevents⟩ :=
    Graph.mapOnto_delivers mapOnto_row hop_of_hosts_row (i := 0) (n := ⟨0, [1, 2], .one, 0⟩) rfl
  cases hkey
  cases hsource
  obtain ⟨hnodup, _, hdeliver, hemit⟩ := hevents 3 (by decide)
  refine ⟨hnodup, (hdeliver ⟨2, 0⟩).2 ⟨1, by decide, ?_⟩, (hemit ⟨2, 0⟩ .east).2 ⟨2, by decide, ?_⟩⟩
  · exact ⟨⟨1, 0, 1, oneCore⟩, rfl, rfl, rfl⟩
  · exact ⟨⟨2, 0, 1, .none⟩, rfl, rfl, rfl⟩

example : journey row rowOutput.tables 0 3 ⟨0, 0⟩ none =
    [.visit ⟨0, 0⟩, .visit ⟨1, 0⟩, .visit ⟨2, 0⟩, .deliver ⟨2, 0⟩, .emit ⟨2, 0⟩ .east] := by
  cbv

end HexFabric
