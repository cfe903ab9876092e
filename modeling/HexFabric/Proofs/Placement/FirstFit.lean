import HexFabric.Placement.FirstFit
import HexFabric.Proofs.Partition
import HexFabric.Proofs.Placement.Valid
import HexFabric.Proofs.Resources.Shortfall
import Mathlib

/-! First fit. It ends in an error of the input or in a placement that fits, has every slice of a
pinned vertex on the chip of the vertex, and leaves no room for any other slice on a chip before its
own: `Graph.firstFit_earliest`. -/

namespace HexFabric

/-- Every slice of a pinned vertex is on the chip of the vertex. -/
def Placement.Pinned (p : Placement) (g : Graph) (part : Partitioning) : Prop :=
  ∀ (s : Nat) (slice : Slice) (c : Chip), part.slices[s]? = some slice →
    g.location? slice.vertex = some c → p.chips[s]? = some c

namespace Occupancy

variable {m : Machine} {g : Graph} {part : Partitioning} {o o' : Occupancy m} {s : Nat}

/-- Slice `s` is on one of `candidates`, and none before that one has room for it. -/
def Settled (part : Partitioning) (o : Occupancy m) (s : Nat) (candidates : List Chip) : Prop :=
  ∃ before c after, candidates = before ++ c :: after ∧ o.chipAt s = some c ∧
    ∀ d ∈ before, ¬o.HasRoom part s d

/-- A chip that has no room gets none by more slices being placed. -/
theorem Settled.of_extends {candidates : List Chip} (hs : o.Settled part s candidates)
    (h : o.Books part) (h' : o'.Books part) (hextends : o.Extends o') :
    o'.Settled part s candidates := by
  obtain ⟨before, c, after, hcandidates, hc, hfull⟩ := hs
  exact ⟨before, c, after, hcandidates, hextends s c hc,
    fun d hd hroom => hfull d hd (hroom.of_extends h h' hextends)⟩

/-- `f` is what comes of placing slice `s` where none of `candidates` has room for it. If these are
live chips, it names a resource of which one of them has less left than the slice demands. -/
structure Refused (g : Graph) (part : Partitioning) (o : Occupancy m) (candidates : List Chip)
    (s : Nat) (f : Failure) : Prop where
  expected : f.Expected
  full : ∀ c ∈ candidates, ¬o.HasRoom part s c
  reported : candidates ≠ [] → (∀ c ∈ candidates, m.Live c) → ∃ slice vertex shortfall,
    part.slices[s]? = some slice ∧ g.vertices[slice.vertex]? = some vertex ∧
    f = .error (.placementInfeasible s vertex.name shortfall) ∧
    shortfall.required = part.need s shortfall.resource ∧
    shortfall.available < shortfall.required ∧
    ∃ c ∈ candidates, shortfall.available = o.left part c shortfall.resource

theorem Books.returns_shortage (h : o.Books part) (hsize : m.size < 2 ^ 32)
    (hvertex : ∀ slice ∈ part.slices, slice.vertex < g.vertices.length) (hs : s < part.slices.size)
    {candidates : List Chip} (hfull : ∀ c ∈ candidates, ¬o.HasRoom part s c) :
    Returns (o.shortage g part s candidates) fun e => o.Refused g part candidates s (.error e) := by
  unfold shortage
  refine Ends.bind (returns_fetch hs) fun slice hslice => ?_
  have hneed := part.need_eq hslice
  have hname := List.getElem?_eq_getElem (hvertex slice (Array.mem_of_getElem? hslice))
  rw [hname]
  refine Ends.bind (Ends.mapM fun c _ => h.returns_remaining hsize c) fun left hleft => ?_
  cases hclosest : slice.demand.closestShortfall left with
  | some shortfall =>
    refine .pure ⟨trivial, hfull, fun _ hlive => ?_⟩
    obtain ⟨capacity, hcapacity, hshort⟩ := Resources.exists_of_closestShortfall hclosest
    obtain ⟨c, hc, hquantity⟩ := forall_right hleft hcapacity
    refine ⟨slice, _, shortfall, hslice, hname, rfl, ?_, hshort.short, c, hc, ?_⟩
    · rw [hshort.required, hneed]
    · rw [hshort.available, hquantity (hlive c hc)]
  | none =>
    refine .pure ⟨trivial, hfull, fun hne hlive => ?_⟩
    rcases Resources.closestShortfall_eq_none_iff.1 hclosest with rfl | ⟨capacity, hcapacity, hfits⟩
    · exact absurd (List.forall₂_nil_right_iff.1 hleft) hne
    · obtain ⟨c, hc, hquantity⟩ := forall_right hleft hcapacity
      refine absurd ⟨hlive c hc, fun k => ?_⟩ (hfull c hc)
      rw [hneed, ← hquantity (hlive c hc)]
      exact Resources.fitsWithin_iff.1 hfits k

/-- The chip that is found is the first one with room. -/
theorem Books.returns_firstRoom (h : o.Books part) (hsize : m.size < 2 ^ 32) {d : Resources}
    (hd : ∀ k, d.quantity k = part.need s k) (candidates : List Chip) :
    Returns (o.firstRoom d candidates) fun r =>
      (r = none → ∀ c ∈ candidates, ¬o.HasRoom part s c) ∧
      ∀ c ∈ r, o.HasRoom part s c ∧ ∃ before after, candidates = before ++ c :: after ∧
        ∀ d ∈ before, ¬o.HasRoom part s d := by
  induction candidates with
  | nil => exact .ok ⟨fun _ => nofun, nofun⟩
  | cons c rest ih =>
    rw [firstRoom]
    refine Ends.bind (h.returns_fits hsize c hd) fun b hb => ?_
    cases b with
    | true =>
      refine .pure ⟨nofun, fun c' hc' => ?_⟩
      cases hc'
      exact ⟨hb.1 rfl, [], rest, rfl, nofun⟩
    | false =>
      have hfull : ¬o.HasRoom part s c := fun hroom => Bool.false_ne_true (hb.2 hroom)
      refine ih.mono ?_
      rintro r ⟨hnone, hsome⟩
      refine ⟨fun hr => List.forall_mem_cons.2 ⟨hfull, hnone hr⟩, fun c' hc' => ?_⟩
      obtain ⟨hroom, before, after, rfl, hbefore⟩ := hsome c' hc'
      exact ⟨hroom, c :: before, after, rfl, List.forall_mem_cons.2 ⟨hfull, hbefore⟩⟩

/-- A slice is put on the first candidate that has room for it, or there is none. -/
theorem Books.ends_place (h : o.Books part) (hsize : m.size < 2 ^ 32) (hbear : o.Bearable part)
    (hvertex : ∀ slice ∈ part.slices, slice.vertex < g.vertices.length) (hs : s < part.slices.size)
    (hfree : o.chipAt s = none) (candidates : List Chip) :
    Ends (o.place g part candidates s) (o.Refused g part candidates s) fun o' =>
      o'.Books part ∧ o'.Bearable part ∧ o.Extends o' ∧ o'.Settled part s candidates ∧
      ∀ s' ≠ s, o'.chipAt s' = o.chipAt s' := by
  unfold place
  refine Ends.bind (part.returns_demandOf hs).lift fun d hd => ?_
  refine Ends.bind (h.returns_firstRoom hsize hd candidates).lift ?_
  rintro (_ | c) ⟨hnone, hsome⟩
  · exact Ends.bind (h.returns_shortage hsize hvertex hs (hnone rfl)).lift fun e he => he
  · obtain ⟨⟨hlive, hroom⟩, before, after, hcandidates, hfull⟩ := hsome c rfl
    refine (h.assign hsize hs hfree hlive hd).lift.mono ?_
    rintro o' ⟨ho', hchip⟩
    have hextends : o.Extends o' := by
      intro s' c' hc'
      have hne : s' ≠ s := fun heq => Option.some_ne_none c' (by rw [← hc', heq, hfree])
      rw [hchip, if_neg hne, hc']
    refine ⟨ho', fun c' hc' k => ?_, hextends, ⟨before, c, after, hcandidates, ?_,
      fun d hd hroom => hfull d hd (hroom.of_extends h ho' hextends)⟩, fun s' hne => ?_⟩
    · have hold := hbear c' hc' k
      rw [h.load_assign ho' hfree hchip hc'.1]
      by_cases heq : c' = c
      · have := hroom k
        rw [left] at this
        rw [heq] at hold ⊢
        rw [if_pos rfl]
        omega
      · rw [if_neg heq]
        exact hold
    · rw [hchip, if_pos rfl]
    · rw [hchip, if_neg hne]

/-- Places slices one by one, each on one of its own candidates. -/
def placeAll (g : Graph) (part : Partitioning) (slices : List (Nat × List Chip))
    (o : Occupancy m) : Outcome (Occupancy m) :=
  slices.foldlM (fun o e => o.place g part e.2 e.1) o

/-- Either all slices find room, or some of them do and the one that comes next does not. -/
theorem Books.ends_placeAll (h : o.Books part) (hsize : m.size < 2 ^ 32) (hbear : o.Bearable part)
    (hvertex : ∀ slice ∈ part.slices, slice.vertex < g.vertices.length)
    {slices : List (Nat × List Chip)} (hslice : ∀ e ∈ slices, e.1 < part.slices.size)
    (hfree : ∀ e ∈ slices, o.chipAt e.1 = none) (hnodup : (slices.map (·.1)).Nodup) :
    Ends (placeAll g part slices o)
      (fun f => ∃ before e after o', slices = before ++ e :: after ∧
        placeAll g part before o = .ok o' ∧ o'.Refused g part e.2 e.1 f)
      fun o' => o'.Books part ∧ o'.Bearable part ∧ o.Extends o' ∧
        (∀ e ∈ slices, o'.Settled part e.1 e.2) ∧
        ∀ s ∉ slices.map (·.1), o'.chipAt s = o.chipAt s := by
  induction slices generalizing o with
  | nil => exact .pure ⟨h, hbear, fun _ _ => id, nofun, fun _ _ => rfl⟩
  | cons e rest ih =>
    rw [List.map_cons, List.nodup_cons] at hnodup
    rw [placeAll, List.foldlM_cons]
    have hfirst := h.ends_place hsize hbear hvertex (hslice e List.mem_cons_self)
      (hfree e List.mem_cons_self) e.2
    refine Ends.bind (hfirst.and_eq.imp (fun f hf => ⟨[], e, rest, o, rfl, rfl, hf⟩)
      fun _ => id) ?_
    rintro o' ⟨hplace, ho', hbear', hextends, hsettled, hkept⟩
    refine (ih ho' hbear' (fun y hy => hslice y (List.mem_cons_of_mem _ hy)) (fun y hy => ?_)
      hnodup.2).imp ?_ ?_
    · rw [hkept y.1 fun heq => hnodup.1 (heq ▸ List.mem_map_of_mem hy)]
      exact hfree y (List.mem_cons_of_mem _ hy)
    · rintro f ⟨before, y, after, o'', rfl, hbefore, hrefused⟩
      refine ⟨e :: before, y, after, o'', rfl, ?_, hrefused⟩
      rw [placeAll, List.foldlM_cons, hplace]
      exact hbefore
    · rintro o'' ⟨ho'', hbear'', hextends', hsettled', hkept'⟩
      refine ⟨ho'', hbear'', fun s c hc => hextends' s c (hextends s c hc),
        List.forall_mem_cons.2 ⟨hsettled.of_extends ho' ho'' hextends', hsettled'⟩, fun s hs => ?_⟩
      rw [List.map_cons, List.mem_cons, not_or] at hs
      rw [hkept' s hs.2, hkept s hs.1]

end Occupancy

namespace Graph

variable {g : Graph} {part : Partitioning} {s : Nat}

theorem mem_pinnedSlices {c : Chip} :
    (s, c) ∈ g.pinnedSlices part ↔
      ∃ slice, part.slices[s]? = some slice ∧ g.location? slice.vertex = some c := by
  rw [pinnedSlices, List.mem_filterMap]
  constructor
  · rintro ⟨e, he, hpinned⟩
    obtain ⟨c', hc', heq⟩ := Option.map_eq_some_iff.1 hpinned
    cases heq
    exact ⟨e.1, getElem?_of_mem_zipIdx he, hc'⟩
  · rintro ⟨slice, hslice, hc⟩
    refine ⟨(slice, s), List.mem_zipIdx_iff_getElem?.2 ?_, by simp [hc]⟩
    rw [Array.getElem?_toList]
    exact hslice

theorem mem_freeSlices :
    s ∈ (g.freeSlices part).map (·.2) ↔
      ∃ slice, part.slices[s]? = some slice ∧ (g.location? slice.vertex).isNone := by
  rw [freeSlices, List.mem_map]
  constructor
  · rintro ⟨e, he, rfl⟩
    rw [List.mem_filter] at he
    exact ⟨e.1, getElem?_of_mem_zipIdx he.1, he.2⟩
  · rintro ⟨slice, hslice, hfree⟩
    refine ⟨(slice, s), List.mem_filter.2 ⟨List.mem_zipIdx_iff_getElem?.2 ?_, hfree⟩, rfl⟩
    rw [Array.getElem?_toList]
    exact hslice

theorem nodup_pinnedSlices (g : Graph) (part : Partitioning) :
    ((g.pinnedSlices part).map (·.1)).Nodup := by
  rw [List.Nodup, List.pairwise_map, pinnedSlices]
  refine (pairwise_zipIdx _).filterMap _ fun a a' hlt b hb b' hb' => ?_
  obtain ⟨_, _, rfl⟩ := Option.map_eq_some_iff.1 hb
  obtain ⟨_, _, rfl⟩ := Option.map_eq_some_iff.1 hb'
  exact Nat.ne_of_lt hlt

theorem nodup_freeSlices (g : Graph) (part : Partitioning) :
    ((g.freeSlices part).map (·.2)).Nodup := by
  rw [List.Nodup, List.pairwise_map]
  exact ((pairwise_zipIdx _).filter _).imp Nat.ne_of_lt

theorem byDemand_perm (g : Graph) (part : Partitioning) (largest : Resources) :
    (g.byDemand part largest).Perm ((g.freeSlices part).map (·.2)) := by
  rw [byDemand]
  refine ((List.mergeSort_perm _ _).map _).trans ?_
  rw [List.map_map]
  exact .refl _

/-- Slices whose demands already fall stay as they are. -/
theorem byDemand_of_pairwise {largest : Resources} (h : (g.freeSlices part).Pairwise fun a b =>
      ¬(a.1.demand.worstRatio largest).2 < (b.1.demand.worstRatio largest).2) :
    g.byDemand part largest = (g.freeSlices part).map (·.2) := by
  unfold byDemand
  extract_lets rated
  rw [List.mergeSort_of_pairwise (List.pairwise_map.2 (h.imp fun hab => decide_eq_true hab)),
    List.map_map]
  rfl

theorem lt_size_of_mem_byDemand {largest : Resources} (h : s ∈ g.byDemand part largest) :
    s < part.slices.size := by
  obtain ⟨_, hslice, _⟩ := mem_freeSlices.1 ((g.byDemand_perm part largest).mem_iff.1 h)
  exact (Array.getElem?_eq_some_iff.1 hslice).1

/-- Every slice is pinned or free, and none is both. -/
theorem mem_byDemand_iff (g : Graph) (part : Partitioning) (largest : Resources)
    (hs : s < part.slices.size) :
    s ∈ g.byDemand part largest ↔ s ∉ (g.pinnedSlices part).map (·.1) := by
  have hslice : part.slices[s]? = some part.slices[s] := Array.getElem?_eq_getElem hs
  rw [(g.byDemand_perm part largest).mem_iff, mem_freeSlices, List.mem_map]
  constructor
  · rintro ⟨slice, hslice', hnone⟩ ⟨⟨_, c⟩, hmem, rfl⟩
    obtain ⟨slice'', hslice'', hc⟩ := mem_pinnedSlices.1 hmem
    rw [hslice', Option.some.injEq] at hslice''
    rw [hslice'', hc] at hnone
    cases hnone
  · refine fun hnot => ⟨_, hslice, ?_⟩
    cases hlocation : g.location? part.slices[s].vertex with
    | none => rfl
    | some c => exact absurd ⟨(s, c), mem_pinnedSlices.2 ⟨_, hslice, hlocation⟩, rfl⟩ hnot

/-- The chips to which a slice may go: that of its vertex, if that is pinned, or any live one. -/
def candidates (g : Graph) (m : Machine) (slice : Slice) : List Chip :=
  match g.location? slice.vertex with
  | some c => [c]
  | none => m.liveChips

theorem candidates_of_pinned {slice : Slice} {c : Chip} (h : g.location? slice.vertex = some c)
    (m : Machine) : g.candidates m slice = [c] := by
  simp only [candidates, h]

theorem candidates_of_free {slice : Slice} (h : g.location? slice.vertex = none) (m : Machine) :
    g.candidates m slice = m.liveChips := by
  simp only [candidates, h]

theorem candidates_congr {m n : Machine} (h : m.SameChips n) (slice : Slice) :
    g.candidates m slice = g.candidates n slice := by
  simp only [candidates, h.liveChips_eq]

/-- The slices in the order in which they are placed, each with the chips to which it may go. -/
def placings (g : Graph) (part : Partitioning) (m : Machine) : List (Nat × List Chip) :=
  (g.pinnedSlices part).map (fun e => (e.1, [e.2])) ++
    (g.byDemand part m.largestCapacities).map fun s => (s, m.liveChips)

theorem firstFit_eq (g : Graph) (part : Partitioning) (m : Machine) :
    g.firstFit part m = (Occupancy.vacant (g.usable m) part.slices.size).placeAll g part
      (g.placings part (g.usable m)) >>= fun o => o.toPlacement := by
  simp only [firstFit, Occupancy.placeAll, placings, List.foldlM_append, List.foldlM_map,
    bind_assoc]

theorem map_fst_placings (g : Graph) (part : Partitioning) (m : Machine) :
    (g.placings part m).map (·.1) =
      (g.pinnedSlices part).map (·.1) ++ g.byDemand part m.largestCapacities := by
  simp [placings, Function.comp_def]

theorem mem_placings {m : Machine} {e : Nat × List Chip} :
    e ∈ g.placings part m ↔
      ∃ slice, part.slices[e.1]? = some slice ∧ e.2 = g.candidates m slice := by
  obtain ⟨s, chips⟩ := e
  rw [placings, List.mem_append, List.mem_map, List.mem_map]
  constructor
  · rintro (⟨⟨_, c⟩, hpinned, heq⟩ | ⟨_, hfree, heq⟩)
    · cases heq
      obtain ⟨slice, hslice, hc⟩ := mem_pinnedSlices.1 hpinned
      exact ⟨slice, hslice, (candidates_of_pinned hc m).symm⟩
    · cases heq
      obtain ⟨slice, hslice, hnone⟩ := mem_freeSlices.1 ((g.byDemand_perm part _).mem_iff.1 hfree)
      exact ⟨slice, hslice, (candidates_of_free (Option.isNone_iff_eq_none.1 hnone) m).symm⟩
  · rintro ⟨slice, hslice, rfl⟩
    cases hc : g.location? slice.vertex with
    | some c =>
      rw [candidates_of_pinned hc]
      exact .inl ⟨(s, c), mem_pinnedSlices.2 ⟨slice, hslice, hc⟩, rfl⟩
    | none =>
      have hfree := mem_freeSlices.2 ⟨slice, hslice, Option.isNone_iff_eq_none.2 hc⟩
      rw [candidates_of_free hc]
      exact .inr ⟨s, (g.byDemand_perm part _).mem_iff.2 hfree, rfl⟩

theorem lt_size_of_mem_placings {m : Machine} {e : Nat × List Chip} (h : e ∈ g.placings part m) :
    e.1 < part.slices.size := by
  obtain ⟨_, hslice, _⟩ := mem_placings.1 h
  exact (Array.getElem?_eq_some_iff.1 hslice).1

theorem nodup_placings (g : Graph) (part : Partitioning) (m : Machine) :
    ((g.placings part m).map (·.1)).Nodup := by
  rw [map_fst_placings, List.nodup_append]
  refine ⟨nodup_pinnedSlices g part, ?_, fun s hs s' hs' heq => ?_⟩
  · rw [(g.byDemand_perm part _).nodup_iff]
    exact nodup_freeSlices g part
  · rw [← heq] at hs'
    exact (mem_byDemand_iff g part _ (lt_size_of_mem_byDemand hs')).1 hs' hs

/-- Every slice is on one of the chips to which it may go, and the live ones before that have less
left of some resource than it needs. -/
def Settles (g : Graph) (part : Partitioning) (m : Machine) (p : Placement) : Prop :=
  ∀ (s : Nat) (slice : Slice), part.slices[s]? = some slice → ∃ before c after,
    g.candidates m slice = before ++ c :: after ∧ p.chips[s]? = some c ∧
    ∀ d ∈ before, m.Live d → ∃ k, p.left part m d k < slice.demand.quantity k

theorem Settles.pinned {m : Machine} {p : Placement} (h : g.Settles part m p) :
    p.Pinned g part := by
  intro s slice c hslice hc
  obtain ⟨before, c', after, hcandidates, hchip, _⟩ := h s slice hslice
  have hmem : c' ∈ g.candidates m slice := by simp [hcandidates]
  rw [candidates_of_pinned hc, List.mem_singleton] at hmem
  rw [hchip, hmem]

/-- A live chip that comes before that of a slice of an unpinned vertex has too little left. -/
theorem Settles.exists_left_lt {m : Machine} {p : Placement} (h : g.Settles part m p)
    {slice : Slice} {c d : Chip} (hslice : part.slices[s]? = some slice)
    (hfree : g.location? slice.vertex = none) (hc : p.chips[s]? = some c) (hd : m.Live d)
    (hlt : d < c) : ∃ k, p.left part m d k < slice.demand.quantity k := by
  obtain ⟨before, c', after, hcandidates, hchip, hfull⟩ := h s slice hslice
  rw [hc, Option.some.injEq] at hchip
  subst hchip
  rw [candidates_of_free hfree] at hcandidates
  have horder := m.pairwise_liveChips
  have hmem := Machine.mem_liveChips.2 hd
  rw [hcandidates] at horder hmem
  exact hfull d (Ascending.mem_before (f := id) horder hmem hlt) hd

/-- First fit ends in a placement that fits and has every slice on the first chip that had room for
it, or it comes to a slice for which there is none. -/
theorem ends_firstFit_settles (hvertex : ∀ slice ∈ part.slices, slice.vertex < g.vertices.length)
    {m : Machine} (hsize : m.size < 2 ^ 32) :
    Ends (g.firstFit part m)
      (fun f => ∃ before e after o, g.placings part (g.usable m) = before ++ e :: after ∧
        (Occupancy.vacant (g.usable m) part.slices.size).placeAll g part before = .ok o ∧
        o.Refused g part e.2 e.1 f)
      fun p => p.Fits part (g.usable m) ∧ g.Settles part (g.usable m) p := by
  rw [← (g.sameLinks_usable m).size_eq] at hsize
  rw [firstFit_eq]
  refine Ends.bind ((Occupancy.books_vacant (g.usable m) part).ends_placeAll hsize
    (Occupancy.bearable_vacant _ part) hvertex (fun e he => lt_size_of_mem_placings he)
    (fun e _ => Occupancy.chipAt_vacant _ _ e.1) (g.nodup_placings part _)) ?_
  rintro o ⟨hbooks, hbear, _, hsettled, _⟩
  have hsettled : ∀ s slice, part.slices[s]? = some slice →
      o.Settled part s (g.candidates (g.usable m) slice) :=
    fun s slice hslice => hsettled (s, _) (mem_placings.2 ⟨slice, hslice, rfl⟩)
  have hcomplete : o.Complete part := by
    intro s hs
    obtain ⟨_, c, _, _, hc, _⟩ := hsettled s _ (Array.getElem?_eq_getElem hs)
    exact ⟨c, hc⟩
  refine (hbooks.returns_toPlacement hcomplete).lift.mono ?_
  rintro p ⟨hsize, hp⟩
  refine ⟨hbooks.fits hbear hsize hp, fun s slice hslice => ?_⟩
  obtain ⟨before, c, after, hcandidates, hc, hfull⟩ := hsettled s slice hslice
  refine ⟨before, c, after, hcandidates, (hp s).trans hc, fun d hd hd' => ?_⟩
  obtain ⟨k, hk⟩ := not_forall.1 (not_and.1 (hfull d hd) hd')
  rw [part.need_eq hslice, Occupancy.left, ← hbooks.load_slicesOn hp hd'.1] at hk
  exact ⟨k, Nat.lt_of_not_le hk⟩

/-- First fit ends in an error of the input or in a placement that fits and keeps to the pins. -/
theorem ends_firstFit (hpart : part.Sound g) {m : Machine} (hsize : m.size < 2 ^ 32) :
    Ends (g.firstFit part m) Failure.Expected fun p =>
      p.Fits part (g.usable m) ∧ p.Pinned g part := by
  refine (ends_firstFit_settles hpart.vertex hsize).imp ?_ ?_
  · rintro f ⟨_, _, _, _, _, _, hrefused⟩
    exact hrefused.expected
  · rintro p ⟨hfits, hsettles⟩
    exact ⟨hfits, hsettles.pinned⟩

/-- If first fit succeeds, on a machine whose chips can be counted in a word, every slice is on a live
chip, no chip bears more than can be used of it, slices of pinned vertices are on the chips of these,
and for every other slice none of the live chips that come before its own has enough left in the
end. -/
theorem firstFit_earliest (hvertex : ∀ slice ∈ part.slices, slice.vertex < g.vertices.length)
    {m : Machine} (hsize : m.size < 2 ^ 32) {p : Placement} (hp : g.firstFit part m = .ok p) :
    p.Placed part m ∧
    (∀ c, m.Live c → ∀ k,
      part.load (p.slicesOn c) k ≤ ((g.usable m).resourcesAt c).quantity k) ∧
    p.Pinned g part ∧
    ∀ (s : Nat) (slice : Slice) (c d : Chip), part.slices[s]? = some slice →
      g.location? slice.vertex = none → p.chips[s]? = some c → m.Live d → d < c →
        ∃ k, p.left part (g.usable m) d k < slice.demand.quantity k := by
  have hsame := (g.sameLinks_usable m).toSameChips
  obtain ⟨hfits, hsettles⟩ := (ends_firstFit_settles hvertex hsize).of_eq_ok hp
  refine ⟨hfits.toPlaced.of_sameChips hsame, fun c hc => hfits.load c (hsame.live_iff.2 hc),
    hsettles.pinned, fun s slice c d hslice hfree hc hd hlt => ?_⟩
  exact hsettles.exists_left_lt hslice hfree hc (hsame.live_iff.2 hd) hlt

/-- Three chips in a row with two cores and a hundred bytes each, the middle one dead. -/
def gappedRow : Machine where
  toBlueprint := { Blueprint.uniform ⟨3, 1, .mesh⟩ with
    resources := SortedMap.ofList [(.cores, 2), (.sdram, 100)]
    deadChips := .ofList [⟨1, 0⟩] }
  valid := Blueprint.fault?_eq_none_iff.1 (by decide +kernel)

/-- Three vertices of a core each, the first of them pinned to the first chip, of which ten bytes are
withheld. -/
def trio : Graph where
  vertices := [⟨"anchor", 1, SortedMap.ofList [(.cores, 1), (.sdram, 50)], 1, none⟩,
    ⟨"wide", 1, SortedMap.ofList [(.cores, 1), (.sdram, 60)], 1, none⟩,
    ⟨"thin", 1, SortedMap.ofList [(.cores, 1)], 1, none⟩]
  nets := []
  locations := .ofList [(0, ⟨0, 0⟩)]
  endpoints := .empty
  reservations := [⟨SortedMap.ofList [(.sdram, 10)], some ⟨0, 0⟩⟩]

def trioPart : Partitioning where
  slices := #[⟨0, 0, 1, SortedMap.ofList [(.cores, 1), (.sdram, 50)]⟩,
    ⟨1, 0, 1, SortedMap.ofList [(.cores, 1), (.sdram, 60)]⟩,
    ⟨2, 0, 1, SortedMap.ofList [(.cores, 1)]⟩]
  ranges := #[(0, 1), (1, 2), (2, 3)]
  nets := #[]

theorem firstFit_trio :
    trio.firstFit trioPart gappedRow = .ok ⟨#[⟨0, 0⟩, ⟨2, 0⟩, ⟨0, 0⟩]⟩ := by
  unfold firstFit
  extract_lets usable chips
  rw [byDemand_of_pairwise (by decide +kernel)]
  cbv

/-- The first chip has a core left for the second vertex, but not enough memory. -/
theorem firstFit_earliest_trio :
    (∀ slice ∈ trioPart.slices, slice.vertex < trio.vertices.length) ∧ gappedRow.size < 2 ^ 32 ∧
    trio.firstFit trioPart gappedRow = .ok ⟨#[⟨0, 0⟩, ⟨2, 0⟩, ⟨0, 0⟩]⟩ ∧
    ∃ k, Placement.left ⟨#[⟨0, 0⟩, ⟨2, 0⟩, ⟨0, 0⟩]⟩ trioPart (trio.usable gappedRow) ⟨0, 0⟩ k <
      trioPart.slices[1].demand.quantity k := by
  have hvertex : ∀ slice ∈ trioPart.slices, slice.vertex < trio.vertices.length := by decide
  have hsize : gappedRow.size < 2 ^ 32 := by decide
  obtain ⟨_, _, _, hearliest⟩ := firstFit_earliest hvertex hsize firstFit_trio
  exact ⟨hvertex, hsize, firstFit_trio, hearliest 1 _ ⟨2, 0⟩ ⟨0, 0⟩ rfl rfl rfl (by decide) (by decide)⟩

end Graph

end HexFabric
