import HexFabric.Proofs.Grid.Distance
import HexFabric.Proofs.Route.Tree
import Mathlib

/-! Machines whose links died in pairs. On the ideal grid the opposite link leads back to where one
came from, so a description in which links die in both directions at once keeps its dead links in
pairs. In the machine that it describes every hop can then be taken back, and so can every walk: where
a word can count the chips, nets are routed one way exactly if they are routed the other,
`Machine.build_symmetric`. -/

namespace HexFabric

/-! ### The ideal grid -/

theorem Link.step_opposite (l : Link) : l.opposite.step = ⟨-l.step.dx, -l.step.dy⟩ := by
  cases l <;> rfl

namespace Grid

variable {g : Grid} {a b : Chip} {l : Link}

theorem Leads.symm {d : Offset} (h : g.Leads a d b) : g.Leads b ⟨-d.dx, -d.dy⟩ a := by
  have hback : ∀ {x y v side : Int}, x + v ≡ y [ZMOD side] → y + -v ≡ x [ZMOD side] := by
    intro x y v side hxy
    simpa using (hxy.add_right (-v)).symm
  exact ⟨hback h.1, hback h.2⟩

/-- The opposite link leads back. -/
theorem neighbour_opposite (ha : g.Has a) (h : g.neighbour a l = some b) :
    g.neighbour b l.opposite = some a := by
  obtain ⟨hb, hleads⟩ := (neighbour_eq_some_iff ha).1 h
  rw [neighbour_eq_some_iff hb, Link.step_opposite]
  exact ⟨ha, hleads.symm⟩

end Grid

/-! ### Descriptions -/

/-- The opposite of every dead link is dead as well, if all of them start on the grid. -/
def Grid.Paired (g : Grid) (dead : InsertionSet (Chip × Link)) : Prop :=
  (∀ e ∈ dead, g.Has e.1) →
    ∀ c l n, (c, l) ∈ dead → g.neighbour c l = some n → (n, l.opposite) ∈ dead

namespace Grid.Paired

variable {g : Grid} {dead : InsertionSet (Chip × Link)} {c other : Chip} {l : Link}

/-- A link over the edge of a mesh has no opposite. -/
theorem insert (h : g.Paired dead) (hedge : g.neighbour c l = none) :
    g.Paired (dead.insert (c, l)) := by
  intro hgrid c' l' n hdead hn
  simp only [InsertionSet.mem_insert] at hgrid hdead ⊢
  rcases hdead with hdead | heq
  · exact .inl (h (fun e he => hgrid e (.inl he)) c' l' n hdead hn)
  · cases heq
    rw [hedge] at hn
    cases hn

theorem insertBoth (h : g.Paired dead) (hother : g.neighbour c l = some other) :
    g.Paired ((dead.insert (c, l)).insert (other, l.opposite)) := by
  intro hgrid c' l' n hdead hn
  simp only [InsertionSet.mem_insert] at hgrid hdead ⊢
  rcases hdead with (hdead | heq) | heq
  · exact .inl (.inl (h (fun e he => hgrid e (.inl (.inl he))) c' l' n hdead hn))
  · cases heq
    rw [hother] at hn
    cases hn
    exact .inr rfl
  · cases heq
    have hc : g.Has c := hgrid (c, l) (.inl (.inr rfl))
    rw [neighbour_opposite hc hother] at hn
    cases hn
    rw [Link.opposite_opposite]
    exact .inl (.inr rfl)

end Grid.Paired

namespace Blueprint

variable {b : Blueprint}

/-- No amendment but that of a single direction takes a link out of its pair. -/
theorem paired_amend (h : b.Paired b.deadLinks) {step : Amendment}
    (hpair : ∀ c l, step ≠ .deadLink c l) :
    Ends (b.amend step) (fun _ => True) fun b => b.Paired b.deadLinks := by
  cases step with
  | resources r => exact .ok h
  | resourceException c r => exact .ok h
  | deadChip c => exact .ok h
  | deadLink c l => exact absurd rfl (hpair c l)
  | deadLinkPair c l =>
    show Ends (b.neighbour? c l >>= _) _ _
    unfold Grid.neighbour?
    split
    · trivial
    · cases hother : b.neighbour c l with
      | none => exact .ok (h.insert hother)
      | some other => exact .ok (h.insertBoth hother)
  | routerCapacity n => exact .ok h
  | routerException c n => exact .ok h

theorem paired_amendAll (h : b.Paired b.deadLinks) {steps : List Amendment}
    (hpairs : ∀ c l, Amendment.deadLink c l ∉ steps) :
    Ends (steps.foldlM amend b) (fun _ => True) fun b => b.Paired b.deadLinks := by
  refine Ends.foldlM (fun _ (b : Blueprint) => b.Paired b.deadLinks) h ?_
  intro step hstep rest b hb
  refine paired_amend hb ?_
  rintro c l rfl
  exact hpairs c l hstep

end Blueprint

/-! ### Machines -/

namespace Machine

variable {m : Machine} {a b c n : Chip} {l : Link} {k : Nat}

theorem ends_ofBlueprint (b : Blueprint) :
    Ends (ofBlueprint b) (fun _ => True) fun m => m.toBlueprint = b := by
  unfold ofBlueprint
  split
  · exact .ok rfl
  · trivial

/-- A machine described without dead links of a single direction has its dead links in pairs. -/
theorem paired_build {grid : Grid} {steps : List Amendment}
    (hbuild : Machine.build grid steps = .ok m) (hpairs : ∀ c l, Amendment.deadLink c l ∉ steps) :
    m.Paired m.deadLinks := by
  have huniform : grid.Paired .empty := fun _ _ _ _ hdead => absurd hdead List.not_mem_nil
  have hdescribed := Blueprint.paired_amendAll (b := .uniform grid) huniform hpairs
  refine Ends.of_eq_ok (E := fun _ => True) (Q := fun m => m.Paired m.deadLinks) ?_ hbuild
  refine Ends.bind hdescribed.liftChecked fun b hb => (Ends.liftError (ends_ofBlueprint b)).mono ?_
  rintro m rfl
  exact hb

theorem hop_eq_some_iff :
    m.hop c l = some n ↔ m.LinkLive c l ∧ m.neighbour c l = some n ∧ m.Live n := by
  simp [hop]

/-- Where dead links are in pairs, every hop can be taken back. -/
theorem hop_symm (h : m.Paired m.deadLinks) (hhop : m.hop c l = some n) :
    m.hop n l.opposite = some c := by
  obtain ⟨⟨hc, halive⟩, hn, hlive⟩ := hop_eq_some_iff.1 hhop
  have hback := Grid.neighbour_opposite hc.1 hn
  refine hop_eq_some_iff.2 ⟨⟨hlive, fun hdead => halive ?_⟩, hback, hc⟩
  simpa using h m.valid.deadLinks n l.opposite c hdead hback

theorem Walk.trans {j : Nat} (hab : m.Walk a j b) (hbc : m.Walk b k c) : m.Walk a (j + k) c := by
  induction hbc with
  | start => exact hab
  | step _ hhop ih => exact ih.step hhop

/-- Where dead links are in pairs, every walk can be taken back. -/
theorem Walk.symm (h : m.Paired m.deadLinks) (hwalk : m.Walk a k b) : m.Walk b k a := by
  induction hwalk with
  | start => exact .start
  | @step k b c l hwalk hhop ih =>
    have hfirst : m.Walk c 1 b := Walk.start.step (hop_symm h hhop)
    rw [Nat.add_comm]
    exact hfirst.trans ih

/-- There are destinations, and all of them are on chip `c`. -/
def AllOn (c : Chip) (ds : InsertionSet Destination) : Prop :=
  ds.elems ≠ [] ∧ ∀ d ∈ ds.elems, d.chip = c

/-- A net to one chip can be routed exactly if hops lead there. -/
theorem routeNet_eq_ok_iff_reaches (hsize : m.size < 2 ^ 32) (ha : m.Has a) (hb : m.Has b)
    {ds : InsertionSet Destination} (hds : AllOn b ds) (net : Nat) :
    (∃ t, m.routeNet net a ds = .ok t) ↔ m.Reaches a b := by
  obtain ⟨hsome, hchip⟩ := hds
  obtain ⟨hfails, _⟩ := routeNet_shortest hsize ha (fun d hd => hchip d hd ▸ hb) net
  have hout : (∃ d ∈ ds.elems, ¬m.Reaches a d.chip) ↔ ¬m.Reaches a b := by
    refine ⟨fun ⟨d, hd, hout⟩ => hchip d hd ▸ hout, fun hout => ?_⟩
    obtain ⟨d, hd⟩ := List.exists_mem_of_ne_nil _ hsome
    exact ⟨d, hd, hchip d hd ▸ hout⟩
  rw [hout] at hfails
  cases hroute : m.routeNet net a ds with
  | ok t => exact iff_of_true ⟨t, rfl⟩ (not_not.1 (hfails.not.1 (by simp [hroute])))
  | error f => exact iff_of_false (by simp) (hfails.1 ⟨f, hroute⟩)

/-- On a machine of which no link died in one direction only, hops can be taken back, and the walks
between two chips are as long one way as the other. If a word can count the chips, nets from one of
them to the other can be routed exactly if nets the other way can. -/
theorem build_symmetric {grid : Grid} {steps : List Amendment}
    (hbuild : Machine.build grid steps = .ok m) (hpairs : ∀ c l, Amendment.deadLink c l ∉ steps) :
    (∀ c n l, m.hop c l = some n ↔ m.hop n l.opposite = some c) ∧
    (∀ a k b, m.Walk a k b ↔ m.Walk b k a) ∧ (∀ a b, m.Reaches a b ↔ m.Reaches b a) ∧
    (m.size < 2 ^ 32 → ∀ a b, m.Live a → m.Live b →
      ∀ there back, AllOn b there → AllOn a back → ∀ i j,
        (∃ t, m.routeNet i a there = .ok t) ↔ ∃ t, m.routeNet j b back = .ok t) := by
  have hpaired := paired_build hbuild hpairs
  have hwalk : ∀ a k b, m.Walk a k b ↔ m.Walk b k a :=
    fun a k b => ⟨.symm hpaired, .symm hpaired⟩
  have hreaches : ∀ a b, m.Reaches a b ↔ m.Reaches b a :=
    fun a b => exists_congr fun k => hwalk a k b
  refine ⟨fun c n l => ⟨hop_symm hpaired, fun h => ?_⟩, hwalk, hreaches, ?_⟩
  · simpa using hop_symm hpaired h
  · intro hsize a b ha hb there back hthere hback i j
    rw [routeNet_eq_ok_iff_reaches hsize ha.1 hb.1 hthere,
      routeNet_eq_ok_iff_reaches hsize hb.1 ha.1 hback, hreaches]

/-- A torus two chips wide, where two links join the chips of a row. One of them died, and so did a
chip. -/
def worn : Machine where
  toBlueprint := { Blueprint.uniform ⟨2, 2, .torus⟩ with
    deadChips := .ofList [⟨1, 1⟩]
    deadLinks := .ofList [(⟨0, 0⟩, .east), (⟨1, 0⟩, .west)] }
  valid := Blueprint.fault?_eq_none_iff.1 (by decide +kernel)

def wornSteps : List Amendment := [.deadLinkPair ⟨0, 0⟩ .east, .deadChip ⟨1, 1⟩]

theorem build_symmetric_worn :
    (Machine.build ⟨2, 2, .torus⟩ wornSteps = .ok worn ∧
      (∀ c l, Amendment.deadLink c l ∉ wornSteps) ∧ worn.size < 2 ^ 32) ∧
    worn.hop ⟨0, 0⟩ .east = none ∧ worn.hop ⟨0, 0⟩ .west = some ⟨1, 0⟩ ∧
    worn.hop ⟨1, 0⟩ .east = some ⟨0, 0⟩ ∧
    ∃ t, worn.routeNet 0 ⟨1, 0⟩ (.ofList [.cores ⟨0, 0⟩]) = .ok t := by
  have hbuild : Machine.build ⟨2, 2, .torus⟩ wornSteps = .ok worn := by cbv
  have hpairs : ∀ c l, Amendment.deadLink c l ∉ wornSteps := by simp [wornSteps]
  have hwest : worn.hop ⟨0, 0⟩ .west = some ⟨1, 0⟩ := by decide
  have hcores : ∀ c, AllOn c (.ofList [.cores c]) :=
    fun c => ⟨List.cons_ne_nil _ _, by simp [Destination.chip]⟩
  obtain ⟨hhop, _, _, hroute⟩ := build_symmetric hbuild hpairs
  have hsize : worn.size < 2 ^ 32 := by decide
  refine ⟨⟨hbuild, hpairs, hsize⟩, by decide, hwest, (hhop _ _ _).1 hwest, ?_⟩
  refine (hroute hsize ⟨0, 0⟩ ⟨1, 0⟩ (by decide) (by decide) _ _ (hcores _) (hcores _) 0 0).1 ?_
  exact ⟨⟨0, #[⟨⟨0, 0⟩, none, [(.west, 1)], false, []⟩, ⟨⟨1, 0⟩, some .east, [], true, []⟩]⟩, by cbv⟩

/-- Of a chip of `overlapping`, all links died but for the one to the first chip. -/
def cornered : Machine where
  toBlueprint := { overlapping.toBlueprint with
    deadLinks := .ofList [(⟨0, 1⟩, .east), (⟨1, 1⟩, .west), (⟨0, 1⟩, .northEast),
      (⟨1, 2⟩, .southWest), (⟨0, 1⟩, .north), (⟨0, 2⟩, .south)] }
  valid := Blueprint.fault?_eq_none_iff.1 (by decide +kernel)

def corneredSteps : List Amendment :=
  [.deadLinkPair ⟨0, 1⟩ .east, .deadLinkPair ⟨0, 1⟩ .northEast, .deadLinkPair ⟨0, 1⟩ .north]

/-- There is a mark for the first chip and for the one above it, but none for their neighbours to the
east. The search goes there from the first chip only. -/
theorem routeNet_asymmetric_cornered :
    (Machine.build ⟨2, 2147483649, .mesh⟩ corneredSteps = .ok cornered ∧
      ∀ c l, Amendment.deadLink c l ∉ corneredSteps) ∧
    (cornered.Live ⟨0, 1⟩ ∧ cornered.Live ⟨0, 0⟩ ∧ cornered.hop ⟨0, 0⟩ .north = some ⟨0, 1⟩) ∧
    (∃ t, cornered.routeNet 0 ⟨0, 1⟩ (.ofList [.cores ⟨0, 0⟩]) = .ok t) ∧
    cornered.routeNet 0 ⟨0, 0⟩ (.ofList [.cores ⟨0, 1⟩]) = .error (.defect .indexOutOfRange) :=
  ⟨⟨by cbv, by simp [corneredSteps]⟩, ⟨by decide, by decide, by decide⟩,
    ⟨⟨0, #[⟨⟨0, 1⟩, none, [(.south, 1)], false, []⟩, ⟨⟨0, 0⟩, some .north, [], true, []⟩]⟩, by cbv⟩,
    by cbv⟩

end Machine

end HexFabric
