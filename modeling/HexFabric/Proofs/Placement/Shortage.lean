import HexFabric.Proofs.Placement.FirstFit

/-! Where first fit stops. It places one slice after the other until it comes to one for which none of
the chips to which it may go has enough left, and what it reports is true of that moment:
`Graph.firstFit_refuses`. Where a word cannot count the chips, it may be true of another chip:
`Graph.firstFit_misreports_overlapping`. -/

namespace HexFabric

namespace Occupancy

variable {m : Machine} {part : Partitioning} {o : Occupancy m} {placed : List Nat} {c : Chip}

/-- How much of a resource the slices `placed` leave of a chip. -/
def leftBy (part : Partitioning) (o : Occupancy m) (placed : List Nat) (c : Chip) (k : Resource) :
    Nat :=
  (m.resourcesAt c).quantity k - part.load (placed.filter (o.chipAt · = some c)) k

theorem Books.leftBy_eq (h : o.Books part) (hnodup : placed.Nodup)
    (hplaced : ∀ s c, o.chipAt s = some c → s ∈ placed) (hc : m.Has c) (k : Resource) :
    o.leftBy part placed c k = o.left part c k := by
  rw [leftBy, left, Partitioning.load_congr (hnodup.filter _) (h.nodup c hc) fun s => ?_]
  rw [List.mem_filter, decide_eq_true_eq, h.mem_residentsAt c hc, and_iff_right_iff_imp]
  exact hplaced s c

end Occupancy

namespace Graph

variable {g : Graph} {part : Partitioning} {m : Machine} {o : Occupancy m} {placed : List Nat}
  {s : Nat}

/-- First fit has placed the slices `placed`, which leads to the books `o`, and comes to slice `s`. -/
def Reaches (g : Graph) (part : Partitioning) (placed : List Nat) (o : Occupancy m) (s : Nat) :
    Prop :=
  ∃ before chips after, g.placings part m = before ++ (s, chips) :: after ∧
    before.map (·.1) = placed ∧
    (Occupancy.vacant m part.slices.size).placeAll g part before = .ok o

theorem Reaches.nodup (h : g.Reaches part placed o s) : placed.Nodup := by
  obtain ⟨before, chips, after, hplacings, rfl, _⟩ := h
  have hnodup := g.nodup_placings part m
  rw [hplacings, List.map_append, List.nodup_append] at hnodup
  exact hnodup.1

/-- The books agree, and the slices that have a chip are those that have been placed. -/
theorem Reaches.books (h : g.Reaches part placed o s) (hsize : m.size < 2 ^ 32)
    (hvertex : ∀ slice ∈ part.slices, slice.vertex < g.vertices.length) :
    o.Books part ∧ ∀ r, (∃ c, o.chipAt r = some c) ↔ r ∈ placed := by
  have hnodup := h.nodup
  obtain ⟨before, chips, after, hplacings, rfl, hplaced⟩ := h
  have hslice : ∀ e ∈ before, e.1 < part.slices.size :=
    fun e he => lt_size_of_mem_placings (hplacings ▸ List.mem_append_left _ he)
  obtain ⟨hbooks, _, _, hsettled, hkept⟩ := ((Occupancy.books_vacant m part).ends_placeAll hsize
    (Occupancy.bearable_vacant m part) hvertex hslice
    (fun e _ => Occupancy.chipAt_vacant m _ e.1) hnodup).of_eq_ok hplaced
  refine ⟨hbooks, fun r => ⟨?_, fun hr => ?_⟩⟩
  · rintro ⟨c, hc⟩
    by_contra hr
    rw [hkept r hr, Occupancy.chipAt_vacant] at hc
    cases hc
  · obtain ⟨e, he, rfl⟩ := List.mem_map.1 hr
    obtain ⟨_, c, _, _, hc, _⟩ := hsettled e he
    exact ⟨c, hc⟩

theorem live_candidates (hg : g.validate m = .ok ()) (hlive : ∃ c, m.Live c) (slice : Slice) :
    g.candidates m slice ≠ [] ∧ ∀ c ∈ g.candidates m slice, m.Live c := by
  cases hc : g.location? slice.vertex with
  | some c =>
    rw [candidates_of_pinned hc]
    exact ⟨List.cons_ne_nil c [], List.forall_mem_singleton.2 (live_of_validate hg hc)⟩
  | none =>
    rw [candidates_of_free hc]
    obtain ⟨c, hc⟩ := hlive
    exact ⟨List.ne_nil_of_mem (Machine.mem_liveChips.2 hc), fun d hd => Machine.mem_liveChips.1 hd⟩

/-- If first fit fails on a machine whose chips a word can count, it has come to a slice of which none
of the chips to which it may go, all of them live, has enough left after the slices placed before it.
The error names the slice, its demand of some resource, and the smaller quantity that is left of it on
one of these chips. -/
theorem firstFit_refuses (hg : g.validate m = .ok ()) (hlive : ∃ c, m.Live c)
    (hsize : m.size < 2 ^ 32) (hvertex : ∀ slice ∈ part.slices, slice.vertex < g.vertices.length)
    {f : Failure} (hf : g.firstFit part m = .error f) :
    ∃ (placed : List Nat) (o : Occupancy (g.usable m)) (s : Nat) (slice : Slice) (vertex : Vertex)
      (shortfall : Shortfall),
      g.Reaches part placed o s ∧ (∀ r, (∃ c, o.chipAt r = some c) ↔ r ∈ placed) ∧
      part.slices[s]? = some slice ∧ g.vertices[slice.vertex]? = some vertex ∧
      f = .error (.placementInfeasible s vertex.name shortfall) ∧
      (∀ c ∈ g.candidates m slice, m.Live c ∧
        ∃ k, o.leftBy part placed c k < slice.demand.quantity k) ∧
      shortfall.required = slice.demand.quantity shortfall.resource ∧
      (∃ c ∈ g.candidates m slice,
        shortfall.available = o.leftBy part placed c shortfall.resource) ∧
      shortfall.available < shortfall.required := by
  have hsame := (g.sameLinks_usable m).toSameChips
  obtain ⟨before, ⟨s, chips⟩, after, o, hplacings, hplaced, hrefused⟩ :=
    (ends_firstFit_settles hvertex hsize).of_eq_error hf
  have hreaches : g.Reaches part (before.map (·.1)) o s :=
    ⟨before, chips, after, hplacings, rfl, hplaced⟩
  obtain ⟨hbooks, hplaced⟩ := hreaches.books (hsame.size_eq ▸ hsize) hvertex
  obtain ⟨slice, hslice, rfl⟩ : ∃ slice, part.slices[s]? = some slice ∧
      chips = g.candidates (g.usable m) slice := mem_placings.1 (hplacings ▸ List.mem_append_cons_self)
  rw [candidates_congr hsame] at hrefused
  obtain ⟨hne, hcandidates⟩ := live_candidates hg hlive slice
  -- The slices that have a chip by now are those placed, so the books and the sum over these agree.
  have hleft : ∀ c ∈ g.candidates m slice, ∀ k,
      o.leftBy part (before.map (·.1)) c k = o.left part c k := fun c hc =>
    hbooks.leftBy_eq hreaches.nodup (fun r c hr => (hplaced r).1 ⟨c, hr⟩)
      (hsame.live_iff.2 (hcandidates c hc)).1
  obtain ⟨slice', vertex, shortfall, hslice', hname, rfl, hrequired, hshort, c, hc, havailable⟩ :=
    hrefused.reported hne fun c hc => hsame.live_iff.2 (hcandidates c hc)
  rw [hslice, Option.some.injEq] at hslice'
  subst hslice'
  refine ⟨_, o, s, slice, vertex, shortfall, hreaches, hplaced, hslice, hname, rfl, fun d hd => ?_,
    hrequired.trans (part.need_eq hslice _), ⟨c, hc, havailable.trans (hleft c hc _).symm⟩, hshort⟩
  obtain ⟨k, hk⟩ := not_forall.1 (not_and.1 (hrefused.full d hd) (hsame.live_iff.2 (hcandidates d hd)))
  rw [part.need_eq hslice, ← hleft d hd] at hk
  exact ⟨hcandidates d hd, k, Nat.lt_of_not_le hk⟩

/-- Two chips with four cores and a hundred bytes each. -/
def pair : Machine where
  toBlueprint := { Blueprint.uniform ⟨2, 1, .mesh⟩ with
    resources := SortedMap.ofList [(.cores, 4), (.sdram, 100)] }
  valid := Blueprint.fault?_eq_none_iff.1 (by decide +kernel)

/-- A vertex that takes most of the memory of one chip, one that takes most of the cores of the other,
and one that needs some of both. -/
def rivals : Graph where
  vertices := [⟨"store", 1, SortedMap.ofList [(.sdram, 90)], 1, none⟩,
    ⟨"worker", 1, SortedMap.ofList [(.cores, 3)], 1, none⟩,
    ⟨"both", 1, SortedMap.ofList [(.cores, 3), (.sdram, 60)], 1, none⟩]
  nets := []
  locations := .ofList [(0, ⟨0, 0⟩), (1, ⟨1, 0⟩)]
  endpoints := .empty
  reservations := []

def rivalPart : Partitioning where
  slices := #[⟨0, 0, 1, SortedMap.ofList [(.sdram, 90)]⟩,
    ⟨1, 0, 1, SortedMap.ofList [(.cores, 3)]⟩,
    ⟨2, 0, 1, SortedMap.ofList [(.cores, 3), (.sdram, 60)]⟩]
  ranges := #[(0, 1), (1, 2), (2, 3)]
  nets := #[]

theorem firstFit_rivals :
    rivals.firstFit rivalPart pair = .error (.error (.placementInfeasible 2 "both" ⟨.cores, 3, 1⟩)) := by
  unfold firstFit
  extract_lets usable chips
  rw [byDemand_of_pairwise (by decide +kernel)]
  decide +kernel

/-- The first chip has too little memory left for the last vertex, the second one too few cores. -/
theorem firstFit_refuses_rivals :
    rivals.validate pair = .ok () ∧ (∃ c, pair.Live c) ∧ pair.size < 2 ^ 32 ∧
    (∀ slice ∈ rivalPart.slices, slice.vertex < rivals.vertices.length) ∧
    rivals.firstFit rivalPart pair =
      .error (.error (.placementInfeasible 2 "both" ⟨.cores, 3, 1⟩)) ∧
    ∃ (placed : List Nat) (o : Occupancy (rivals.usable pair)), rivals.Reaches rivalPart placed o 2 ∧
      (∀ c, pair.Live c →
        ∃ k, o.leftBy rivalPart placed c k < rivalPart.slices[2].demand.quantity k) ∧
      ∃ c, pair.Live c ∧ 1 = o.leftBy rivalPart placed c .cores := by
  have hvalid : rivals.validate pair = .ok () := rfl
  have hlive : ∃ c, pair.Live c := ⟨⟨0, 0⟩, by decide⟩
  have hvertex : ∀ slice ∈ rivalPart.slices, slice.vertex < rivals.vertices.length := by decide
  have hsize : pair.size < 2 ^ 32 := by decide
  refine ⟨hvalid, hlive, hsize, hvertex, firstFit_rivals, ?_⟩
  obtain ⟨placed, o, s, slice, vertex, shortfall, hreaches, _, hslice, _, hf, hfull, _, ⟨c, hc, hleft⟩,
    _⟩ := firstFit_refuses hvalid hlive hsize hvertex firstFit_rivals
  simp only [Failure.error.injEq, Error.placementInfeasible.injEq] at hf
  obtain ⟨rfl, _, rfl⟩ := hf
  cases hslice
  rw [candidates_of_free rfl] at hfull hc
  exact ⟨placed, o, hreaches, fun d hd => (hfull d (Machine.mem_liveChips.2 hd)).2, c,
    Machine.mem_liveChips.1 hc, hleft⟩

/-- Two vertices that need all cores of a chip each, pinned to chips of `Machine.overlapping` that
share a cell. -/
def distant : Graph where
  vertices := [⟨"far", 1, SortedMap.ofList [(.cores, 18)], 1, none⟩,
    ⟨"near", 1, SortedMap.ofList [(.cores, 18)], 1, none⟩]
  nets := []
  locations := .ofList [(0, ⟨1, 2147483647⟩), (1, ⟨0, 0⟩)]
  endpoints := .empty
  reservations := []

def distantPart : Partitioning where
  slices := #[⟨0, 0, 1, SortedMap.ofList [(.cores, 18)]⟩, ⟨1, 0, 1, SortedMap.ofList [(.cores, 18)]⟩]
  ranges := #[(0, 1), (1, 2)]
  nets := #[]

theorem placings_distant (m : Machine) :
    distant.placings distantPart m = [(0, [⟨1, 2147483647⟩]), (1, [⟨0, 0⟩])] := by
  have hfree : distant.freeSlices distantPart = [] := by decide
  have hdemand : distant.byDemand distantPart m.largestCapacities = [] := by
    have hperm := distant.byDemand_perm distantPart m.largestCapacities
    rw [hfree] at hperm
    exact hperm.eq_nil
  rw [placings, hdemand]
  rfl

/-- The slice that was placed first is on another chip, but in the books it takes the place of the
second one. -/
theorem firstFit_misreports_overlapping :
    (distant.validate .overlapping = .ok () ∧ Machine.overlapping.Live ⟨0, 0⟩ ∧
      ∀ slice ∈ distantPart.slices, slice.vertex < distant.vertices.length) ∧
    distant.firstFit distantPart .overlapping =
      .error (.error (.placementInfeasible 1 "near" ⟨.cores, 18, 0⟩)) ∧
    ∃ o : Occupancy (distant.usable .overlapping), distant.Reaches distantPart [0] o 1 ∧
      o.chipAt 0 = some ⟨1, 2147483647⟩ ∧ o.leftBy distantPart [0] ⟨0, 0⟩ .cores = 18 := by
  have hfirst : (Occupancy.placeAll distant distantPart [(0, [⟨1, 2147483647⟩])]
      (.vacant (distant.usable .overlapping) 2)).map (·.chips) =
        .ok #[some ⟨1, 2147483647⟩, none] := by
    decide +kernel
  refine ⟨⟨rfl, by decide, by decide⟩, ?_, ?_⟩
  · rw [firstFit_eq, placings_distant]
    decide +kernel
  · cases ho : Occupancy.placeAll distant distantPart [(0, [⟨1, 2147483647⟩])]
        (.vacant (distant.usable .overlapping) 2) with
    | error f => rw [ho] at hfirst; cases hfirst
    | ok o =>
      rw [ho] at hfirst
      have hchips : o.chips = #[some ⟨1, 2147483647⟩, none] := Except.ok.inj hfirst
      have hchip : o.chipAt 0 = some ⟨1, 2147483647⟩ := by
        rw [Occupancy.chipAt, hchips]
        rfl
      refine ⟨o, ⟨_, _, _, placings_distant _, rfl, ho⟩, hchip, ?_⟩
      have hnone : [0].filter (o.chipAt · = some ⟨0, 0⟩) = [] := by simp [hchip]
      rw [Occupancy.leftBy, hnone]
      rfl

end Graph

end HexFabric
