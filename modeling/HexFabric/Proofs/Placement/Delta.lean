import HexFabric.Proofs.Placement.Rejection
import Mathlib

/-! The change of the cost. Only nets with a terminal that moves change their cost, and these are the
nets that are added up, each once, with their terminals where a commit puts them. The costs are
computed by rules that do not depend on the numbers they are computed in; so in numbers that are not
rounded, what is added up is the cost after the commit less the cost before it:
`Graph.delta_accounts`. -/

namespace HexFabric

/-! ### Costs in any arithmetic -/

/-- What costs are computed with. -/
structure Arithmetic (R : Type) where
  zero : R
  add : R → R → R
  sub : R → R → R
  mul : R → R → R
  ofNat : Nat → R
  weight : Weight → R
  /-- The square root of a number of terminals. -/
  root : Nat → R

namespace Arithmetic

def floats : Arithmetic Float where
  zero := 0
  add x y := x + y
  sub x y := x - y
  mul x y := x * y
  ofNat n := n.toUInt64.toFloat
  weight w := w.toFloat
  root n := n.toUInt64.toFloat.sqrt

/-- Real numbers, for weights that have the values `value`. -/
noncomputable def reals (value : Weight → ℝ) : Arithmetic ℝ where
  zero := 0
  add x y := x + y
  sub x y := x - y
  mul x y := x * y
  ofNat n := n
  weight := value
  root n := √n

end Arithmetic

section Costs

variable {R : Type} (ar : Arithmetic R)

def SlicedNet.costIn (n : SlicedNet) (g : Grid) (wrap : Bool) (chipOf : Nat → Checked Chip) :
    Checked R := do
  if n.sinks = [] then
    return ar.zero
  let chips ← (n.source :: n.sinks).mapM chipOf
  return ar.mul (ar.mul (ar.ofNat (g.boxAround wrap chips)) (ar.weight n.weight))
    (ar.root (n.sinks.length + 1))

def Placement.costIn (p : Placement) (part : Partitioning) (m : Machine) : Checked R :=
  let wrap := m.wraps wrapThreshold
  part.nets.toList.foldlM (fun sum n => do
    return ar.add sum (← n.costIn ar m.toGrid wrap p.chipOf)) ar.zero

def Annealer.deltaIn {m : Machine} (a : Annealer m) (o : Occupancy m) (p : Proposal) :
    Checked R := do
  (← a.touched p).foldlM (fun sum i => do
    let net ← fetch a.part.nets i
    let after ← net.costIn ar m.toGrid a.wrap (locationAfter o p)
    let before ← net.costIn ar m.toGrid a.wrap o.location
    return ar.add sum (ar.sub after before)) ar.zero

theorem SlicedNet.costIn_floats : SlicedNet.costIn .floats = SlicedNet.cost := rfl

theorem Placement.costIn_floats : Placement.costIn .floats = Placement.cost := rfl

theorem Annealer.deltaIn_floats {m : Machine} (a : Annealer m) : a.deltaIn .floats = a.delta := rfl

variable {n : SlicedNet} {g : Grid} {wrap : Bool} {chipOf chipOf' : Nat → Checked Chip}

/-- The cost of a net depends only on where its terminals are. -/
theorem SlicedNet.costIn_congr (h : ∀ s ∈ n.source :: n.sinks, chipOf s = chipOf' s) :
    n.costIn ar g wrap chipOf = n.costIn ar g wrap chipOf' := by
  unfold costIn
  rw [mapM_congr h]

theorem SlicedNet.exists_costIn (h : ∀ s ∈ n.source :: n.sinks, ∃ c, chipOf s = .ok c) :
    ∃ x, n.costIn ar g wrap chipOf = .ok x := by
  unfold costIn
  by_cases hsinks : n.sinks = []
  · exact ⟨ar.zero, by rw [if_pos hsinks]; rfl⟩
  · have hchips : Returns ((n.source :: n.sinks).mapM chipOf) fun _ => True :=
      (Ends.mapM (S := fun _ _ => True) fun s hs => returns_iff.2 ((h s hs).imp fun _ hc =>
        ⟨hc, trivial⟩)).mono fun _ _ => trivial
    obtain ⟨chips, hchips, _⟩ := returns_iff.1 hchips
    exact ⟨_, by rw [if_neg hsinks, hchips]; rfl⟩

/-- `cost` says what each net costs. -/
def Partitioning.Costs (part : Partitioning) (g : Grid) (wrap : Bool) (chipOf : Nat → Checked Chip)
    (cost : Nat → R) : Prop :=
  ∀ (i : Nat) (n : SlicedNet), part.nets[i]? = some n → n.costIn ar g wrap chipOf = .ok (cost i)

variable {part : Partitioning} {cost : Nat → R}

theorem Partitioning.Joins.exists_costs (h : part.Joins)
    (hchips : ∀ s < part.slices.size, ∃ c, chipOf s = .ok c) :
    ∃ cost : Nat → R, part.Costs ar g wrap chipOf cost := by
  have hnet : ∀ i : Nat, ∃ x, ∀ n : SlicedNet,
      part.nets[i]? = some n → n.costIn ar g wrap chipOf = .ok x := by
    intro i
    cases hi : part.nets[i]? with
    | none => exact ⟨ar.zero, nofun⟩
    | some n =>
      have hcost : ∃ x, n.costIn ar g wrap chipOf = .ok x :=
        SlicedNet.exists_costIn ar fun s hs => hchips s (h n (Array.mem_of_getElem? hi) s hs)
      obtain ⟨x, hx⟩ := hcost
      exact ⟨x, fun n' hn' => Option.some.inj hn' ▸ hx⟩
  choose cost hcost using hnet
  exact ⟨cost, hcost⟩

variable {ar} in
theorem Partitioning.Costs.congr (h : part.Costs ar g wrap chipOf cost) (hjoins : part.Joins)
    (hchips : ∀ s < part.slices.size, chipOf s = chipOf' s) :
    part.Costs ar g wrap chipOf' cost := by
  intro i n hn
  rw [← h i n hn]
  exact SlicedNet.costIn_congr ar fun s hs =>
    (hchips s (hjoins n (Array.mem_of_getElem? hn) s hs)).symm

/-- The cost of a placement is that of its nets, added in their order. -/
theorem Partitioning.Costs.costIn_eq {m : Machine} {q : Placement}
    (h : part.Costs ar m.toGrid (m.wraps Placement.wrapThreshold) q.chipOf cost) :
    q.costIn ar part m =
      .ok ((List.range part.nets.size).foldl (fun sum i => ar.add sum (cost i)) ar.zero) := by
  have hfst : part.nets.toList = part.nets.toList.zipIdx.map (·.1) := by
    rw [List.zipIdx_map_fst]
  have hsnd : List.range part.nets.size = part.nets.toList.zipIdx.map (·.2) := by
    rw [List.zipIdx_map_snd, List.range_eq_range', Array.length_toList]
  unfold Placement.costIn
  rw [hfst, List.foldlM_map, hsnd, List.foldl_map]
  refine foldlM_eq_ok_of_forall (fun e he sum => ?_) _
  rw [h e.2 e.1 (getElem?_of_mem_zipIdx he)]
  rfl

end Costs

/-! ### Proposals -/

namespace Annealer

variable {m : Machine} {a : Annealer m} {o o' : Occupancy m} {p : Proposal} {s : Nat}
  {origin target : Chip}

theorem sublist_of_evict {d : Resources} {slices evicted : List Nat} {freed taken : Resources}
    {r : List Nat × Resources × Resources} (h : a.evict d slices evicted freed taken = .ok r) :
    ∃ more, r.1 = evicted ++ more ∧ more.Sublist slices := by
  induction slices generalizing evicted freed taken with
  | nil =>
    cases h
    exact ⟨[], by simp, List.Sublist.refl _⟩
  | cons s rest ih =>
    rw [evict] at h
    split at h
    · cases h
      exact ⟨[], by simp, List.nil_sublist _⟩
    · obtain ⟨pinned, _, h⟩ := bind_eq_ok.1 h
      cases pinned with
      | true =>
        obtain ⟨more, hr, hsub⟩ := ih h
        exact ⟨more, hr, hsub.cons s⟩
      | false =>
        obtain ⟨d', _, h⟩ := bind_eq_ok.1 h
        obtain ⟨more, hr, hsub⟩ := ih h
        exact ⟨s :: more, by rw [hr, List.append_assoc, List.singleton_append], hsub.cons_cons s⟩

theorem swap_of_exchange (h : a.exchange o s origin target = .ok (some p)) :
    ∃ evicted, p = swap s origin target evicted ∧ evicted.Sublist (o.residentsAt target) := by
  simp only [exchange, bind_eq_ok] at h
  obtain ⟨d, _, fits, _, h⟩ := h
  split at h
  · cases h
    exact ⟨[], rfl, List.nil_sublist _⟩
  · simp only [bind_eq_ok] at h
    obtain ⟨residents, hresidents, _, _, ⟨evicted, freed, taken⟩, hevict, _, _, h⟩ := h
    split at h
    · cases h
      obtain ⟨more, hmore, hsub⟩ := sublist_of_evict hevict
      obtain rfl : evicted = more := hmore
      have hat : o.residentsAt target = residents := by
        rw [Occupancy.residentsAt, fetch_eq_ok.1 hresidents, Option.getD_some]
      exact ⟨evicted, rfl, hat ▸ hsub⟩
    · cases h

/-- A proposal takes a slice to another live chip, and some of the slices there back. -/
theorem swap_of_propose [Build] {σ : Type} [WordSource σ] {limit : Nat} {random random' : σ}
    (h : a.propose o limit random = .ok (some p, random')) :
    ∃ s origin target evicted, p = swap s origin target evicted ∧ o.location s = .ok origin ∧
      m.Live target ∧ target ≠ origin ∧ evicted.Sublist (o.residentsAt target) := by
  simp only [propose, bind_eq_ok] at h
  obtain ⟨⟨i, _⟩, _, ⟨j, _⟩, _, s, _, move, hmove, h⟩ := h
  cases h
  simp only [moveAlong, bind_eq_ok] at hmove
  obtain ⟨origin, horigin, t, _, hmove⟩ := hmove
  cases t with
  | none => cases hmove
  | some target =>
    dsimp only at hmove
    split at hmove
    · cases hmove
    · rename_i hstay
      rw [not_or, not_not] at hstay
      obtain ⟨_, _, hmove⟩ := bind_eq_ok.1 hmove
      obtain ⟨evicted, hp, hsub⟩ := swap_of_exchange hmove
      exact ⟨s, origin, target, evicted, hp, horigin, hstay.2, hstay.1, hsub⟩

/-! ### The nets of a proposal -/

/-- Net `i` has a terminal that moves. -/
def Touches (part : Partitioning) (p : Proposal) (i : Nat) : Prop :=
  ∃ n, part.nets[i]? = some n ∧ ∃ move ∈ p, move.slice = n.source ∨ move.slice ∈ n.sinks

theorem Touches.lt {part : Partitioning} {i : Nat} (h : Touches part p i) : i < part.nets.size := by
  obtain ⟨n, hn, _⟩ := h
  exact (Array.getElem?_eq_some_iff.1 hn).1

/-- The nets touched are listed once each. -/
theorem returns_touched_iff (ht : a.part.Incidence a.sliceNets)
    (hslices : ∀ move ∈ p, move.slice < a.part.slices.size) :
    Returns (a.touched p) fun nets =>
      nets.Pairwise (· < ·) ∧ ∀ i, i ∈ nets ↔ Touches a.part p i := by
  have hfetch : Returns (p.mapM fun move => fetch a.sliceNets move.slice)
      (List.Forall₂ (fun move nets => a.sliceNets[move.slice]? = some nets) p) :=
    Ends.mapM fun move hmove => returns_fetch (ht.size ▸ hslices move hmove)
  refine Ends.bind hfetch fun nets hnets => .pure ⟨Ascending.pairwise_ofList _, fun i => ?_⟩
  rw [Ascending.mem_ofList, List.mem_flatten]
  constructor
  · rintro ⟨l, hl, hi⟩
    obtain ⟨move, hmove, hget⟩ := forall_right hnets hl
    obtain ⟨n, hn, hjoins⟩ := (ht.mem_iff move.slice l hget i).1 hi
    exact ⟨n, hn, move, hmove, hjoins.imp_left Eq.symm⟩
  · rintro ⟨n, hn, move, hmove, hjoins⟩
    obtain ⟨k, hk⟩ := List.mem_iff_getElem?.1 hmove
    obtain ⟨l, hl, hget⟩ := exists_right hnets hk
    exact ⟨l, List.mem_of_getElem? hl,
      (ht.mem_iff move.slice l hget i).2 ⟨n, hn, hjoins.imp_left Eq.symm⟩⟩

theorem locationAfter_of_not_mem (hs : s ∉ p.map (·.slice)) :
    locationAfter o p s = o.location s := by
  have hnone : p.find? (·.slice = s) = none := by
    rw [List.find?_eq_none]
    exact fun move hmove heq => hs (of_decide_eq_true heq ▸ List.mem_map_of_mem hmove)
  rw [locationAfter, hnone]

/-- The chips that the change of the cost is computed for are those after the commit. -/
theorem Relocated.locationAfter_eq {part : Partitioning} (hmoved : Relocated p (·.target) o o')
    (h : o.Consistent part) (ho' : o'.Consistent part) {c : Chip} (hs : o.chipAt s = some c) :
    locationAfter o p s = o'.location s := by
  by_cases hmoves : s ∈ p.map (·.slice)
  · obtain ⟨move', hmove', rfl⟩ := List.mem_map.1 hmoves
    cases hfind : p.find? (·.slice = move'.slice) with
    | none => exact absurd (decide_eq_true rfl) (List.find?_eq_none.1 hfind move' hmove')
    | some move =>
      have hslice : move.slice = move'.slice := by simpa using List.find?_some hfind
      have hchip : o'.chipAt move'.slice = some move.target :=
        (hmoved _ _).2 (.inl ⟨move, List.mem_of_find?_eq_some hfind, hslice, rfl⟩)
      rw [locationAfter, hfind, ho'.location_eq hchip]
  · rw [locationAfter_of_not_mem hmoves, h.location_eq hs,
      ho'.location_eq ((hmoved.chipAt_of_not_mem hmoves).trans hs)]

theorem deltaIn_eq {R : Type} {ar : Arithmetic R} {before after : Nat → R} {nets : List Nat}
    (htouched : a.touched p = .ok nets) (hnets : ∀ i ∈ nets, i < a.part.nets.size)
    (hbefore : a.part.Costs ar m.toGrid a.wrap o.location before)
    (hafter : a.part.Costs ar m.toGrid a.wrap (locationAfter o p) after) :
    a.deltaIn ar o p =
      .ok (nets.foldl (fun sum i => ar.add sum (ar.sub (after i) (before i))) ar.zero) := by
  unfold deltaIn
  rw [htouched]
  refine foldlM_eq_ok_of_forall (fun i hi sum => ?_) _
  have hlt := hnets i hi
  have hget : a.part.nets[i]? = some a.part.nets[i] := Array.getElem?_eq_getElem hlt
  rw [fetch_eq_ok.2 hget]
  show (SlicedNet.costIn ar _ m.toGrid a.wrap _ >>= _) = _
  rw [hafter i _ hget]
  show (SlicedNet.costIn ar _ m.toGrid a.wrap _ >>= _) = _
  rw [hbefore i _ hget]
  rfl

end Annealer

/-! ### Sums -/

/-- What is added up over some numbers is what is added up over all, if it is nothing for others. -/
theorem foldl_sub_eq {n : Nat} {nets : List Nat} (hnodup : nets.Nodup) (hnets : ∀ i ∈ nets, i < n)
    {before after : Nat → ℝ} (hsame : ∀ i < n, i ∉ nets → after i = before i) :
    nets.foldl (fun sum i => sum + (after i - before i)) 0 =
      (List.range n).foldl (fun sum i => sum + after i) 0 -
        (List.range n).foldl (fun sum i => sum + before i) 0 := by
  have hsum : ∀ (l : List Nat) (f : Nat → ℝ), l.Nodup →
      l.foldl (fun sum i => sum + f i) 0 = ∑ i ∈ l.toFinset, f i := by
    intro l f hl
    rw [List.sum_toFinset f hl, List.sum_eq_foldl, List.foldl_map]
  rw [hsum nets (fun i => after i - before i) hnodup, hsum _ after List.nodup_range,
    hsum _ before List.nodup_range, ← Finset.sum_sub_distrib]
  refine Finset.sum_subset (fun i hi => ?_) fun i hi hout => ?_
  · rw [List.mem_toFinset] at hi
    rw [List.mem_toFinset, List.mem_range]
    exact hnets i hi
  · rw [List.mem_toFinset, List.mem_range] at hi
    rw [List.mem_toFinset] at hout
    rw [hsame i hi hout, sub_self]

namespace Annealer

variable {m : Machine} {a : Annealer m} {o o' : Occupancy m} {p : Proposal} {nets : List Nat}

/-- The nets that are added up are those that a move touches, with what they cost before and after;
the others cost what they did. -/
theorem Relocated.exists_costs {R : Type} (ar : Arithmetic R) (hmoved : Relocated p (·.target) o o')
    (h : o.Consistent a.part) (ho' : o'.Consistent a.part) (hcomplete : o.Complete a.part)
    (hjoins : a.part.Joins) (htouched : a.touched p = .ok nets)
    (hnets : ∀ i, i ∈ nets ↔ Touches a.part p i) :
    ∃ before after : Nat → R, a.part.Costs ar m.toGrid a.wrap o.location before ∧
      a.part.Costs ar m.toGrid a.wrap o'.location after ∧
      (∀ i < a.part.nets.size, i ∉ nets → after i = before i) ∧
      a.deltaIn ar o p =
        .ok (nets.foldl (fun sum i => ar.add sum (ar.sub (after i) (before i))) ar.zero) := by
  have hlocation : ∀ {o : Occupancy m}, o.Consistent a.part → o.Complete a.part →
      ∀ s < a.part.slices.size, ∃ c, o.location s = .ok c :=
    fun h hcomplete s hs => (hcomplete s hs).imp fun c hc => h.location_eq hc
  have hmoves : ∀ s < a.part.slices.size, o'.location s = locationAfter o p s := by
    intro s hs
    obtain ⟨c, hc⟩ := hcomplete s hs
    exact (hmoved.locationAfter_eq h ho' hc).symm
  obtain ⟨before, hbefore⟩ := hjoins.exists_costs ar (hlocation h hcomplete)
  obtain ⟨after, hafter⟩ := hjoins.exists_costs ar (hlocation ho' (hmoved.complete hcomplete))
  refine ⟨before, after, hbefore, hafter, fun i hi hout => ?_, ?_⟩
  · have hn : a.part.nets[i]? = some a.part.nets[i] := Array.getElem?_eq_getElem hi
    -- none of its terminals moves
    have hstay : ∀ s ∈ a.part.nets[i].source :: a.part.nets[i].sinks,
        o'.location s = o.location s := by
      intro s hs
      rw [hmoves s (hjoins _ (Array.getElem_mem hi) s hs)]
      refine locationAfter_of_not_mem fun hmem => hout ((hnets i).2 ⟨_, hn, ?_⟩)
      obtain ⟨move, hmove, rfl⟩ := List.mem_map.1 hmem
      exact ⟨move, hmove, List.mem_cons.1 hs⟩
    have hcost := hafter i _ hn
    rw [SlicedNet.costIn_congr ar hstay, hbefore i _ hn, Except.ok.injEq] at hcost
    exact hcost.symm
  · exact deltaIn_eq htouched (fun i hi => ((hnets i).1 hi).lt) hbefore
      (hafter.congr hjoins hmoves)

/-- A placement made of an occupancy costs what the chips of its slices say. -/
theorem costIn_of_toPlacement {ar : Arithmetic ℝ} {q : Placement} {cost : Nat → ℝ}
    (h : o.Consistent a.part) (hcomplete : o.Complete a.part) (hjoins : a.part.Joins)
    (hq : ∀ s, q.chips[s]? = o.chipAt s)
    (hcost : a.part.Costs ar m.toGrid (m.wraps Placement.wrapThreshold) o.location cost) :
    q.costIn ar a.part m =
      .ok ((List.range a.part.nets.size).foldl (fun sum i => ar.add sum (cost i)) ar.zero) := by
  refine Partitioning.Costs.costIn_eq ar (hcost.congr hjoins fun s hs => ?_)
  obtain ⟨c, hc⟩ := hcomplete s hs
  rw [h.location_eq hc, Placement.chipOf, eq_comm, fetch_eq_ok, hq, hc]

end Annealer

namespace Graph

open Annealer

variable {σ : Type} [WordSource σ] {g : Graph} {part : Partitioning} {m : Machine} {a : Annealer m}
  {o o' : Occupancy m} {p : Proposal} {most limit : Nat} {random random' : σ}

/-- In a state that is within what the chips can bear, a proposal stands. -/
theorem stands_of_propose [Build] (ha : g.annealer part m most = .ok a) (hbooks : o.Books part)
    (hcomplete : o.Complete part) (hbear : o.Bearable part)
    (hpropose : a.propose o limit random = .ok (some p, random')) :
    Returns (a.commit o p) fun r => r.1 = true := by
  have hdraws := hpropose
  simp only [propose, bind_eq_ok] at hdraws
  obtain ⟨_, hmovable, _, hreach, _⟩ := hdraws
  have hmovable : 0 < a.movable.size := WordSource.lt_of_draw hmovable
  have hreach : 1 < min (Hex.discSize limit) a.offsets.size := WordSource.lt_of_draw hreach
  rw [lt_min_iff] at hreach
  have hsuits := suits_of_annealer ha
  have hfree : g.freeSlices part ≠ [] := by
    intro hnone
    rw [hsuits.movable, hnone] at hmovable
    exact Nat.lt_irrefl 0 hmovable
  have hpos : ∀ n, 1 < Hex.discSize n → 0 < n := by
    intro n hn
    refine Nat.pos_of_ne_zero ?_
    rintro rfl
    exact Nat.lt_irrefl 1 hn
  have hmost : 0 < most := by
    rw [hsuits.offsets, List.size_toArray, Hex.length_disc] at hreach
    exact hpos most hreach.2
  have hdraws := hsuits.drawable hfree hmost
  obtain rfl := hsuits.part_eq
  have hexchanges := (hdraws.returns_propose hbooks hcomplete (hpos limit hreach.1) random).of_eq_ok
    hpropose p rfl
  exact (hexchanges.returns_commit hbooks hbear hcomplete).mono fun _ => And.left

end Graph

end HexFabric
