import HexFabric.Placement.Proposal
import HexFabric.Proofs.Hex.Disc
import HexFabric.Proofs.Placement.Valid

/-! Proposals. A proposal is admissible if it moves different slices, none of them pinned, each from
its chip to a live one; all proposals drawn are, being exchanges for which both chips have room.
Committing an admissible proposal keeps the books, leaves no chip with more than it can bear and
moves no other slice, and if the proposal does not stand, every slice is where it was. -/

namespace HexFabric

/-! ### Draws -/

namespace WordSource

variable {σ : Type} [WordSource σ]

theorem drawUpper_lt {range : Nat} (h : 0 < range) (attempts : Nat) (s : σ) :
    (drawUpper range attempts s).1 < range := by
  have hscale : ∀ w : UInt64, w.toNat * range / UInt64.size < range := by
    intro w
    rw [Nat.div_lt_iff_lt_mul (by decide), Nat.mul_comm range]
    exact Nat.mul_lt_mul_of_pos_right w.toNat_lt_size h
  induction attempts generalizing s with
  | zero => exact hscale _
  | succ attempts ih =>
    rw [drawUpper]
    dsimp only
    split
    · exact hscale _
    · exact ih _

theorem returns_draw {lo hi : Nat} (h : lo < hi) (s : σ) :
    Returns (draw lo hi s) fun r => lo ≤ r.1 ∧ r.1 < hi := by
  have hlt := drawUpper_lt (Nat.sub_pos_of_lt h) 1000 s
  rw [draw, if_pos h]
  refine .ok ⟨Nat.le_add_right _ _, ?_⟩
  show lo + (drawUpper (hi - lo) 1000 s).1 < hi
  omega

theorem lt_of_draw {lo hi : Nat} {s : σ} {r : Nat × σ} (h : draw lo hi s = .ok r) : lo < hi := by
  by_contra hle
  rw [draw, if_neg hle] at h
  cases h

end WordSource

/-! ### Drawing a proposal -/

namespace Annealer

/-- The moves are of different slices, none of them pinned, each from its chip to a live one. -/
structure Admissible {m : Machine} (a : Annealer m) (o : Occupancy m) (p : Proposal) : Prop where
  nodup : (p.map (·.slice)).Nodup
  loose : ∀ move ∈ p, a.pinned[move.slice]? = some false
  origin : ∀ move ∈ p, o.chipAt move.slice = some move.origin
  target : ∀ move ∈ p, m.Live move.target

/-- The moves are of different slices, each from its chip to one of the grid. -/
structure Possible {m : Machine} (o : Occupancy m) (p : Proposal) : Prop where
  nodup : (p.map (·.slice)).Nodup
  origin : ∀ move ∈ p, o.chipAt move.slice = some move.origin
  target : ∀ move ∈ p, m.Has move.target

theorem Admissible.possible {m : Machine} {a : Annealer m} {o : Occupancy m} {p : Proposal}
    (h : a.Admissible o p) : Possible o p :=
  ⟨h.nodup, h.origin, fun move hmove => (h.target move hmove).1⟩

theorem Admissible.congr {m : Machine} {a : Annealer m} {o o' : Occupancy m} {p : Proposal}
    (h : a.Admissible o p) (hchip : ∀ s, o'.chipAt s = o.chipAt s) : a.Admissible o' p :=
  ⟨h.nodup, h.loose, fun move hmove => (hchip _).trans (h.origin move hmove), h.target⟩

theorem Admissible.not_mem_of_pinned {m : Machine} {a : Annealer m} {o : Occupancy m}
    {p : Proposal} (h : a.Admissible o p) {s : Nat} (hs : a.pinned[s]? = some true) :
    s ∉ p.map (·.slice) := by
  intro hmem
  obtain ⟨move, hmove, rfl⟩ := List.mem_map.1 hmem
  rw [h.loose move hmove] at hs
  cases hs

/-- There is a slice to move and a place to move it to, slices that may move are not pinned, and
displacements are sorted by rings. -/
structure Drawable {m : Machine} (a : Annealer m) : Prop where
  pinned : a.pinned.size = a.part.slices.size
  movable : ∀ s ∈ a.movable, a.pinned[s]? = some false
  movable_pos : 0 < a.movable.size
  offsets : ∃ most, 0 < most ∧ a.offsets = (Hex.disc most).toArray

/-- The tables of an annealer are as long as they have to be, and refer to what is there. -/
structure Ready {m : Machine} (a : Annealer m) : Prop extends a.Drawable where
  sliceNets_size : a.sliceNets.size = a.part.slices.size
  sliceNets : ∀ nets ∈ a.sliceNets, ∀ i ∈ nets, i < a.part.nets.size
  source : ∀ n ∈ a.part.nets, n.source < a.part.slices.size
  sinks : ∀ n ∈ a.part.nets, ∀ s ∈ n.sinks, s < a.part.slices.size

variable {m : Machine} {σ : Type} [WordSource σ] {a : Annealer m} {o : Occupancy m}

/-- Only slices that are not pinned have to leave, and what they demand becomes free. -/
theorem Drawable.returns_evict (ha : a.Drawable) (d : Resources) {slices evicted : List Nat}
    {freed taken : Resources} (hslices : ∀ s ∈ slices, s < a.part.slices.size) :
    Returns (a.evict d slices evicted freed taken) fun r =>
      ∃ more, r.1 = evicted ++ more ∧ more.Sublist slices ∧
        (∀ s ∈ more, a.pinned[s]? = some false) ∧
        ∀ k, r.2.1.quantity k = freed.quantity k + a.part.load more k ∧
          r.2.2.quantity k = taken.quantity k + a.part.load more k := by
  induction slices generalizing evicted freed taken with
  | nil => exact .ok ⟨[], by simp, List.nil_sublist _, nofun, fun k => ⟨rfl, rfl⟩⟩
  | cons s rest ih =>
    have hs := hslices s List.mem_cons_self
    have hrest : ∀ s ∈ rest, s < a.part.slices.size :=
      fun s hs => hslices s (List.mem_cons_of_mem _ hs)
    rw [evict]
    by_cases hfits : d.fitsWithin freed
    · rw [if_pos hfits]
      exact .pure ⟨[], by simp, List.nil_sublist _, nofun, fun k => ⟨rfl, rfl⟩⟩
    rw [if_neg hfits]
    refine Ends.bind (returns_fetch (ha.pinned ▸ hs)) fun pinned hpinned => ?_
    cases pinned with
    | true =>
      refine (ih hrest).mono ?_
      rintro r ⟨more, hr, hsub, hloose, hquantity⟩
      exact ⟨more, hr, hsub.cons s, hloose, hquantity⟩
    | false =>
      refine Ends.bind (a.part.returns_demandOf hs) fun d' hd' => ?_
      refine (ih hrest).mono ?_
      rintro r ⟨more, hr, hsub, hloose, hquantity⟩
      refine ⟨s :: more, by rw [hr, List.append_assoc, List.singleton_append], hsub.cons_cons s,
        List.forall_mem_cons.2 ⟨hpinned, hloose⟩, fun k => ?_⟩
      rw [(hquantity k).1, (hquantity k).2, Resources.quantity_add, Resources.quantity_add, hd',
        a.part.load_cons]
      exact ⟨Nat.add_assoc _ _ _, Nat.add_assoc _ _ _⟩

/-- The moves by which a slice goes from `origin` to `target` and others come back. -/
def swap (s : Nat) (origin target : Chip) (evicted : List Nat) : Proposal :=
  ⟨s, origin, target⟩ :: evicted.map fun r => ⟨r, target, origin⟩

theorem map_slice_swap (s : Nat) (origin target : Chip) (evicted : List Nat) :
    (swap s origin target evicted).map (·.slice) = s :: evicted := by
  simp [swap, Function.comp_def]

theorem mem_swap {move : Move} {s : Nat} {origin target : Chip} {evicted : List Nat} :
    move ∈ swap s origin target evicted ↔
      move = ⟨s, origin, target⟩ ∨ ∃ r ∈ evicted, move = ⟨r, target, origin⟩ := by
  simp [swap, eq_comm]

theorem nodup_cons_of_chipAt {s : Nat} {origin target : Chip} {evicted : List Nat}
    (hs : o.chipAt s = some origin) (hevicted : ∀ r ∈ evicted, o.chipAt r = some target)
    (hnodup : evicted.Nodup) (hne : target ≠ origin) : (s :: evicted).Nodup := by
  refine List.nodup_cons.2 ⟨fun hmem => hne ?_, hnodup⟩
  rw [hevicted s hmem, Option.some.injEq] at hs
  exact hs

theorem possible_swap {s : Nat} {origin target : Chip} {evicted : List Nat}
    (hs : o.chipAt s = some origin) (hevicted : ∀ r ∈ evicted, o.chipAt r = some target)
    (hnodup : evicted.Nodup) (hne : target ≠ origin) (horigin : m.Has origin)
    (htarget : m.Has target) : Possible o (swap s origin target evicted) := by
  refine ⟨?_, fun move hmem => ?_, fun move hmem => ?_⟩
  · rw [map_slice_swap]
    exact nodup_cons_of_chipAt hs hevicted hnodup hne
  · rcases mem_swap.1 hmem with rfl | ⟨r, hr, rfl⟩
    · exact hs
    · exact hevicted r hr
  · rcases mem_swap.1 hmem with rfl | ⟨r, _, rfl⟩
    · exact htarget
    · exact horigin

/-- Slice `s` can go from `origin` to `target` if those of `evicted` come back: all are where they are
said to be, none is pinned, and each chip has room for what it gets beside what it keeps. -/
structure Exchange (a : Annealer m) (o : Occupancy m) (s : Nat) (origin target : Chip)
    (evicted : List Nat) : Prop where
  at_origin : o.chipAt s = some origin
  at_target : ∀ r ∈ evicted, o.chipAt r = some target
  nodup : evicted.Nodup
  loose : ∀ r ∈ s :: evicted, a.pinned[r]? = some false
  live : m.Live target
  ne : target ≠ origin
  target_room : ∀ k, a.part.need s k ≤ o.left a.part target k + a.part.load evicted k
  origin_room : ∀ k, a.part.load evicted k ≤ o.left a.part origin k + a.part.need s k

/-- A proposal is an exchange. -/
def Exchanges (a : Annealer m) (o : Occupancy m) (p : Proposal) : Prop :=
  ∃ s origin target evicted, p = swap s origin target evicted ∧
    a.Exchange o s origin target evicted

section Exchange

variable {s : Nat} {origin target : Chip} {evicted : List Nat}

theorem Exchange.nodup_slices (h : a.Exchange o s origin target evicted) :
    (s :: evicted).Nodup :=
  nodup_cons_of_chipAt h.at_origin h.at_target h.nodup h.ne

theorem Exchange.possible (h : a.Exchange o s origin target evicted) (hbooks : o.Books a.part) :
    Possible o (swap s origin target evicted) :=
  possible_swap h.at_origin h.at_target h.nodup h.ne (hbooks.live s origin h.at_origin).1 h.live.1

theorem Exchange.admissible (h : a.Exchange o s origin target evicted) (hbooks : o.Books a.part) :
    a.Admissible o (swap s origin target evicted) := by
  refine ⟨(h.possible hbooks).nodup, fun move hmem => ?_, (h.possible hbooks).origin,
    fun move hmem => ?_⟩
  · refine h.loose _ ?_
    rw [← map_slice_swap s origin target evicted]
    exact List.mem_map_of_mem hmem
  · rcases mem_swap.1 hmem with rfl | ⟨r, _, rfl⟩
    · exact h.live
    · exact hbooks.live s origin h.at_origin

theorem Exchanges.admissible {p : Proposal} (h : a.Exchanges o p) (hbooks : o.Books a.part) :
    a.Admissible o p := by
  obtain ⟨s, origin, target, evicted, rfl, h⟩ := h
  exact h.admissible hbooks

theorem Drawable.returns_exchange (ha : a.Drawable) (h : o.Books a.part)
    (hs : o.chipAt s = some origin) (hloose : a.pinned[s]? = some false) (htarget : m.Live target)
    (hne : target ≠ origin) :
    Returns (a.exchange o s origin target) fun r => ∀ p ∈ r, a.Exchanges o p := by
  have horigin := h.live s origin hs
  have hsize := h.consistent.size_lt hs
  unfold exchange
  refine Ends.bind (a.part.returns_demandOf (h.lt_of_chipAt hs)) fun d hd => ?_
  refine Ends.bind (h.returns_fits hsize target hd) fun b hb => ?_
  extract_lets
  cases b with
  | true =>
    obtain ⟨_, hroom⟩ := hb.1 rfl
    refine .pure fun p hp => ?_
    cases hp
    exact ⟨s, origin, target, [], rfl, hs, nofun, List.nodup_nil, by simpa using hloose, htarget,
      hne, hroom, fun k => Nat.zero_le _⟩
  | false =>
    refine Ends.bind (h.returns_residents hsize htarget.1) fun residents hresidents => ?_
    refine Ends.bind (h.returns_remaining hsize target) fun freed hfreed => ?_
    have hmem : ∀ r ∈ residents, o.chipAt r = some target := by
      intro r hr
      exact (h.mem_residentsAt target htarget.1 r).1 (hresidents ▸ hr)
    refine Ends.bind (ha.returns_evict d fun r hr => h.lt_of_chipAt (hmem r hr)) ?_
    rintro ⟨evicted, freed', taken⟩ ⟨more, hevicted, hsub, hloose', hquantity⟩
    simp only [List.nil_append] at hevicted hquantity
    subst hevicted
    refine Ends.bind (h.returns_remaining hsize origin) fun left hleft => ?_
    by_cases hroom : (d.fitsWithin freed' && taken.fitsWithin (left.add d)) = true
    · rw [if_pos hroom]
      refine .pure fun p hp => ?_
      cases hp
      rw [Bool.and_eq_true, Resources.fitsWithin_iff, Resources.fitsWithin_iff] at hroom
      refine ⟨s, origin, target, evicted, rfl, hs, fun r hr => hmem r (hsub.subset hr),
        hsub.nodup (hresidents ▸ h.nodup target htarget.1),
        List.forall_mem_cons.2 ⟨hloose, hloose'⟩, htarget, hne, fun k => ?_, fun k => ?_⟩
      · have := hroom.1 k
        rwa [hd, (hquantity k).1, hfreed htarget] at this
      · have := hroom.2 k
        rwa [(hquantity k).2, Resources.quantity_none, Nat.zero_add, Resources.quantity_add,
          hleft horigin, hd] at this
    · rw [if_neg hroom]
      exact .pure nofun

end Exchange

theorem Drawable.one_lt_reach (ha : a.Drawable) {limit : Nat} (hlimit : 0 < limit) :
    1 < a.reach limit := by
  obtain ⟨most, hmost, hoffsets⟩ := ha.offsets
  rw [reach, hoffsets, List.size_toArray, Hex.length_disc]
  exact lt_min (Hex.one_lt_discSize hlimit) (Hex.one_lt_discSize hmost)

/-- What is drawn for a limit leads no further. -/
theorem Drawable.returns_target (ha : a.Drawable) {limit i : Nat} (hi : i < a.reach limit) {c : Chip}
    (hc : m.Has c) : Returns (a.target c i) fun t => ∀ n ∈ t, m.distance c n ≤ limit := by
  obtain ⟨hlimit, hsize⟩ := lt_min_iff.1 hi
  obtain ⟨most, _, hoffsets⟩ := ha.offsets
  refine Ends.bind (returns_fetch hsize) fun d hd => .pure fun n hn => ?_
  rw [hoffsets, List.getElem?_toArray] at hd
  exact Nat.le_trans (Grid.distance_le_of_leads hc ((Grid.shift_eq_some_iff hc).1 hn).2)
    (Hex.steps_le_of_getElem?_disc hlimit hd)

theorem Drawable.returns_moveAlong [Build] (ha : a.Drawable) (h : o.Books a.part)
    {limit s i : Nat} {origin : Chip} (hs : o.chipAt s = some origin)
    (hloose : a.pinned[s]? = some false) (hi : i < a.reach limit) :
    Returns (a.moveAlong o limit s i) fun r => ∀ p ∈ r, a.Exchanges o p := by
  unfold moveAlong
  refine Ends.bind (h.returns_location hs) fun c hc => ?_
  rw [hc]
  refine Ends.bind (ha.returns_target hi (h.live s origin hs).1) fun t hnear => ?_
  cases t with
  | none => exact .pure nofun
  | some target =>
    dsimp only
    by_cases hstay : target = origin ∨ ¬m.Live target
    · rw [if_pos hstay]
      exact .pure nofun
    · rw [if_neg hstay, assert_of (hnear target rfl)]
      rw [not_or, not_not] at hstay
      exact ha.returns_exchange h hs hloose hstay.2 hstay.1

theorem Drawable.returns_propose [Build] (ha : a.Drawable) (h : o.Books a.part)
    (hcomplete : o.Complete a.part) {limit : Nat} (hlimit : 0 < limit) (random : σ) :
    Returns (a.propose o limit random) fun r => ∀ p ∈ r.1, a.Exchanges o p := by
  unfold propose
  refine Ends.bind (WordSource.returns_draw ha.movable_pos random) ?_
  rintro ⟨i, random⟩ ⟨_, hi⟩
  refine Ends.bind (WordSource.returns_draw (ha.one_lt_reach hlimit) random) ?_
  rintro ⟨j, random⟩ ⟨_, hj⟩
  refine Ends.bind (returns_fetch hi) fun s hs => ?_
  have hloose := ha.movable s (Array.mem_of_getElem? hs)
  obtain ⟨origin, horigin⟩ :=
    hcomplete s (ha.pinned ▸ (Array.getElem?_eq_some_iff.1 hloose).1)
  exact Ends.bind (ha.returns_moveAlong h horigin hloose hj) fun p hp => .pure hp

end Annealer

/-! ### The change of the cost -/

theorem SlicedNet.returns_cost {n : SlicedNet} {g : Grid} {wrap : Bool}
    {chipOf : Nat → Checked Chip}
    (h : ∀ s ∈ n.source :: n.sinks, Returns (chipOf s) fun _ => True) :
    Returns (n.cost g wrap chipOf) fun _ => True := by
  unfold cost
  by_cases hsinks : n.sinks = []
  · rw [if_pos hsinks]
    exact .pure trivial
  · rw [if_neg hsinks]
    exact Ends.bind (Ends.mapM (S := fun _ _ => True) h) fun _ _ => .pure trivial

namespace Annealer

variable {m : Machine} {a : Annealer m} {o : Occupancy m} {p : Proposal}

theorem Ready.returns_touched (ha : a.Ready) (h : o.Books a.part) (hp : a.Admissible o p) :
    Returns (a.touched p) fun nets => ∀ i ∈ nets, i < a.part.nets.size := by
  have hnets := Ends.mapM (l := p) (f := fun move => fetch a.sliceNets move.slice)
    (E := fun _ => False) (S := fun _ nets => ∀ i ∈ nets, i < a.part.nets.size)
    fun move hmove => by
      have hlt := h.lt_of_chipAt (hp.origin move hmove)
      refine (returns_fetch (ha.sliceNets_size ▸ hlt)).mono fun nets hnets => ?_
      exact ha.sliceNets nets (Array.mem_of_getElem? hnets)
  refine Ends.bind hnets fun nets hnets => .pure fun i hi => ?_
  obtain ⟨l, hl, hi⟩ := List.mem_flatten.1 (Ascending.mem_ofList.1 hi)
  obtain ⟨_, _, hall⟩ := forall_right hnets hl
  exact hall i hi

theorem Ready.returns_delta (ha : a.Ready) (h : o.Books a.part) (hcomplete : o.Complete a.part)
    (hp : a.Admissible o p) : Returns (a.delta o p) fun _ => True := by
  have hlocation : ∀ s < a.part.slices.size, Returns (o.location s) fun _ => True := by
    intro s hs
    obtain ⟨c, hc⟩ := hcomplete s hs
    exact (h.returns_location hc).mono fun _ _ => trivial
  have hafter : ∀ s < a.part.slices.size, Returns (locationAfter o p s) fun _ => True := by
    intro s hs
    unfold locationAfter
    split
    · exact .ok trivial
    · exact hlocation s hs
  unfold delta
  refine Ends.bind (ha.returns_touched h hp) fun nets hnets => ?_
  refine Ends.foldlM (fun _ _ => True) trivial fun i hi _ sum _ => ?_
  refine Ends.bind (returns_fetch (hnets i hi)) fun n hn => ?_
  have hmem := Array.mem_of_getElem? hn
  have hterminal : ∀ s ∈ n.source :: n.sinks, s < a.part.slices.size := by
    intro s hs
    rcases List.mem_cons.1 hs with rfl | hs
    · exact ha.source n hmem
    · exact ha.sinks n hmem s hs
  refine Ends.bind (SlicedNet.returns_cost fun s hs => hafter s (hterminal s hs)) fun _ _ => ?_
  refine Ends.bind (SlicedNet.returns_cost fun s hs => hlocation s (hterminal s hs)) fun _ _ => ?_
  exact .pure trivial

/-! ### Committing a proposal -/

theorem returns_lift (h : o.Consistent a.part) (hnodup : (p.map (·.slice)).Nodup)
    (hplaced : ∀ move ∈ p, ∃ c, o.chipAt move.slice = some c) :
    Returns (a.lift p o) fun o' => o'.Consistent a.part ∧
      (∀ s, o'.chipAt s = if s ∈ p.map (·.slice) then none else o.chipAt s) ∧
      ∀ c, m.Has c → o'.residentsAt c = (o.residentsAt c).filter (· ∉ p.map (·.slice)) := by
  induction p generalizing o with
  | nil => exact .ok ⟨h, by simp, by simp⟩
  | cons move rest ih =>
    rw [List.map_cons, List.nodup_cons] at hnodup
    obtain ⟨c, hc⟩ := hplaced move List.mem_cons_self
    rw [lift]
    refine Ends.bind (a.part.returns_demandOf (h.lt_of_chipAt hc)) fun d hd => ?_
    refine Ends.bind (h.unassign hc hd) ?_
    rintro o' ⟨ho', hchip, hresidents⟩
    refine (ih ho' hnodup.2 fun move' hmove' => ?_).mono ?_
    · have hne : move'.slice ≠ move.slice := fun heq => hnodup.1 (heq ▸ List.mem_map_of_mem hmove')
      obtain ⟨c', hc'⟩ := hplaced move' (List.mem_cons_of_mem _ hmove')
      exact ⟨c', by rw [hchip, if_neg hne, hc']⟩
    · rintro o'' ⟨ho'', hchip', hresidents'⟩
      refine ⟨ho'', fun s => ?_, fun c' hc' => ?_⟩
      · rw [hchip', hchip, List.map_cons]
        by_cases heq : s = move.slice
        · simp [heq]
        · simp [heq]
      · rw [hresidents' c' hc', hresidents c' hc', List.filter_filter]
        refine List.filter_congr fun s _ => ?_
        simp [Bool.and_comm]

theorem drop_eq_assignAll (chip : Move → Chip) (p : Proposal) (o : Occupancy m) :
    a.drop chip p o = o.assignAll a.part (p.map fun move => (chip move, move.slice)) := by
  induction p generalizing o with
  | nil => rfl
  | cons move rest ih =>
    rw [drop, List.map_cons, Occupancy.assignAll]
    simp only [ih]

/-- The moving slices are on the chips that `chip` says, and the others where they were. -/
def Relocated (p : Proposal) (chip : Move → Chip) (o o' : Occupancy m) : Prop :=
  ∀ s c, o'.chipAt s = some c ↔ (∃ move ∈ p, move.slice = s ∧ chip move = c) ∨
    s ∉ p.map (·.slice) ∧ o.chipAt s = some c

theorem returns_relocate (h : o.Consistent a.part) (hnodup : (p.map (·.slice)).Nodup)
    (hplaced : ∀ move ∈ p, ∃ c, o.chipAt move.slice = some c) {chip : Move → Chip}
    (hhas : ∀ move ∈ p, m.Has (chip move)) :
    Returns (a.lift p o >>= a.drop chip p) fun o' => o'.Consistent a.part ∧
      Relocated p chip o o' ∧
      ∀ c, m.Has c → o'.residentsAt c = (o.residentsAt c).filter (· ∉ p.map (·.slice)) ++
        (p.filter (chip · = c)).map (·.slice) := by
  refine Ends.bind (returns_lift h hnodup hplaced) ?_
  rintro lifted ⟨hlifted, hchip, hresidents⟩
  rw [drop_eq_assignAll]
  have hsize : p.map (fun move => (chip move, move.slice)) ≠ [] → m.size < 2 ^ 32 := by
    intro hne
    obtain ⟨move, hmove⟩ := List.exists_mem_of_ne_nil p fun hnil => hne (by rw [hnil, List.map_nil])
    obtain ⟨c, hc⟩ := hplaced move hmove
    exact h.size_lt hc
  refine (hlifted.returns_assignAll hsize ?_ ?_ ?_ ?_).mono ?_
  · intro e he
    obtain ⟨move, hmove, rfl⟩ := List.mem_map.1 he
    exact hhas move hmove
  · intro e he
    obtain ⟨move, hmove, rfl⟩ := List.mem_map.1 he
    obtain ⟨c, hc⟩ := hplaced move hmove
    exact h.lt_of_chipAt hc
  · intro e he
    obtain ⟨move, hmove, rfl⟩ := List.mem_map.1 he
    rw [hchip, if_pos (List.mem_map_of_mem hmove)]
  · rw [List.map_map]
    exact hnodup
  · rintro o' ⟨ho', hchip', hresidents'⟩
    refine ⟨ho', fun s c => ?_, fun c hc => ?_⟩
    · rw [hchip', hchip, List.mem_map]
      refine or_congr ?_ ?_
      · simp only [Prod.mk.injEq, and_comm]
      · by_cases hs : s ∈ p.map (·.slice)
        · simp [hs]
        · simp [hs]
    · rw [hresidents' c hc, hresidents c hc, List.filter_map, List.map_map]
      rfl

/-- Where the moving slices come to live chips, every slice is on a live chip again. -/
theorem Relocated.books {o' : Occupancy m} {chip : Move → Chip} (hchip : Relocated p chip o o')
    (h : o'.Consistent a.part) (hbooks : o.Books a.part) (hlive : ∀ move ∈ p, m.Live (chip move)) :
    o'.Books a.part := by
  refine h.books fun s c hc => ?_
  rcases (hchip s c).1 hc with ⟨move, hmove, _, rfl⟩ | ⟨_, hc⟩
  · exact hlive move hmove
  · exact hbooks.live s c hc

theorem returns_bearable {part : Partitioning} (h : o.Consistent part) {p : Proposal}
    (hplaced : ∀ move ∈ p, ∃ c, o.chipAt move.slice = some c) :
    Returns (bearable o p) fun b => b = true ↔ ∀ move ∈ p, ∀ c, c = move.origin ∨ c = move.target →
      m.Live c ∧ ∀ k, part.load (o.residentsAt c) k ≤ (m.resourcesAt c).quantity k := by
  refine Ends.allM fun move hmove => ?_
  obtain ⟨_, hc⟩ := hplaced move hmove
  have hsize := h.size_lt hc
  refine Ends.bind (h.returns_withinCapacity hsize move.origin) fun b hb => ?_
  cases b with
  | false => exact .pure ⟨nofun, fun hall => hb.2 (hall move.origin (.inl rfl))⟩
  | true =>
    refine (h.returns_withinCapacity hsize move.target).mono fun b' hb' => ?_
    rw [hb']
    constructor
    · rintro htarget c (rfl | rfl)
      · exact hb.1 rfl
      · exact htarget
    · exact fun hall => hall move.target (.inr rfl)

namespace Relocated

variable {o' o'' : Occupancy m} {chip : Move → Chip}

theorem placed (h : Relocated p chip o o') :
    ∀ move ∈ p, ∃ c, o'.chipAt move.slice = some c :=
  fun move hmove => ⟨chip move, (h _ _).2 (.inl ⟨move, hmove, rfl, rfl⟩)⟩

theorem complete (h : Relocated p chip o o') (hcomplete : o.Complete a.part) :
    o'.Complete a.part := by
  intro s hs
  by_cases hmoves : s ∈ p.map (·.slice)
  · obtain ⟨move, hmove, rfl⟩ := List.mem_map.1 hmoves
    exact h.placed move hmove
  · obtain ⟨c, hc⟩ := hcomplete s hs
    exact ⟨c, (h s c).2 (.inr ⟨hmoves, hc⟩)⟩

/-- A slice that is not to move stays where it is. -/
theorem chipAt_of_not_mem (h : Relocated p chip o o') {s : Nat} (hs : s ∉ p.map (·.slice)) :
    o'.chipAt s = o.chipAt s := by
  refine Option.ext fun c => (h s c).trans ⟨?_, fun hc => .inr ⟨hs, hc⟩⟩
  rintro (⟨move, hmove, rfl, _⟩ | ⟨_, hc⟩)
  · exact absurd (List.mem_map_of_mem hmove) hs
  · exact hc

/-- A chip that is neither left nor entered keeps its slices. -/
theorem chipAt_iff_of_untouched (h : Relocated p (·.target) o o') (hp : a.Admissible o p) {c : Chip}
    (hc : ¬∃ move ∈ p, c = move.origin ∨ c = move.target) (s : Nat) :
    o'.chipAt s = some c ↔ o.chipAt s = some c := by
  rw [h]
  constructor
  · rintro (⟨move, hmove, _, htarget⟩ | ⟨_, hs⟩)
    · exact absurd ⟨move, hmove, .inr htarget.symm⟩ hc
    · exact hs
  · refine fun hs => .inr ⟨fun hmoves => ?_, hs⟩
    obtain ⟨move, hmove, rfl⟩ := List.mem_map.1 hmoves
    rw [hp.origin move hmove] at hs
    cases hs
    exact hc ⟨move, hmove, .inl rfl⟩

/-- Moving back puts every slice where it was. -/
theorem chipAt_eq_of_back (h : Relocated p chip o o') (hback : Relocated p (·.origin) o' o'')
    (hp : Possible o p) (s : Nat) : o''.chipAt s = o.chipAt s := by
  refine Option.ext fun c => ?_
  rw [hback, h]
  by_cases hmoves : s ∈ p.map (·.slice)
  · obtain ⟨move, hmove, rfl⟩ := List.mem_map.1 hmoves
    constructor
    · rintro (⟨move', hmove', hslice, rfl⟩ | ⟨hnot, _⟩)
      · rw [← hslice]
        exact hp.origin move' hmove'
      · exact absurd hmoves hnot
    · intro hs
      rw [hp.origin move hmove] at hs
      cases hs
      exact .inl ⟨move, hmove, rfl, rfl⟩
  · have hnone : ∀ chip : Move → Chip, ¬∃ move ∈ p, move.slice = s ∧ chip move = c :=
      fun chip ⟨move, hmove, heq, _⟩ => hmoves (heq ▸ List.mem_map_of_mem hmove)
    simp [hnone, hmoves]

end Relocated

theorem Possible.placed (hp : Possible o p) :
    ∀ move ∈ p, ∃ c, o.chipAt move.slice = some c :=
  fun move hmove => ⟨move.origin, hp.origin move hmove⟩

/-- Moving out and back again: a chip lists the slices that stayed on it, and behind them those that
were to leave. -/
theorem Possible.returns_back {moved : Occupancy m} (hp : Possible o p) (h : o.Consistent a.part)
    (hmoved : moved.Consistent a.part) (hchip : Relocated p (·.target) o moved)
    (hresidents : ∀ c, m.Has c → moved.residentsAt c =
      (o.residentsAt c).filter (· ∉ p.map (·.slice)) ++ (p.filter (·.target = c)).map (·.slice)) :
    Returns (a.lift p moved >>= a.drop (·.origin) p) fun back => back.Consistent a.part ∧
      (∀ s, back.chipAt s = o.chipAt s) ∧
      ∀ c, m.Has c → back.residentsAt c =
        (o.residentsAt c).filter (· ∉ p.map (·.slice)) ++ (p.filter (·.origin = c)).map (·.slice) := by
  have horigin : ∀ move ∈ p, m.Has move.origin :=
    fun move hmove => h.has _ _ (hp.origin move hmove)
  refine (returns_relocate hmoved hp.nodup hchip.placed horigin).mono ?_
  rintro back ⟨hback, hchip', hresidents'⟩
  refine ⟨hback, hchip.chipAt_eq_of_back hchip' hp, fun c hc => ?_⟩
  have hgone : ((p.filter (·.target = c)).map (·.slice)).filter (· ∉ p.map (·.slice)) = [] := by
    refine List.filter_eq_nil_iff.2 fun s hs => ?_
    obtain ⟨move, hmove, rfl⟩ := List.mem_map.1 hs
    simpa using ⟨move, (List.mem_filter.1 hmove).1, rfl⟩
  rw [hresidents' c hc, hresidents c hc, List.filter_append, List.filter_filter, hgone,
    List.append_nil]
  simp only [Bool.and_self]

/-- What a commit does. It stands if, with the slices moved, every chip that it touches is live and
bears no more than it offers; if it does not stand it moves them back. -/
theorem Possible.returns_commit (hp : Possible o p) (h : o.Consistent a.part) :
    Returns (a.commit o p) fun r => ∃ moved : Occupancy m, moved.Consistent a.part ∧
      Relocated p (·.target) o moved ∧
      (r.1 = true ↔ ∀ move ∈ p, ∀ c, c = move.origin ∨ c = move.target →
        m.Live c ∧ ∀ k, a.part.load (moved.residentsAt c) k ≤ (m.resourcesAt c).quantity k) ∧
      (r.1 = true → r.2 = moved) ∧
      (r.1 = false → r.2.Consistent a.part ∧ (∀ s, r.2.chipAt s = o.chipAt s) ∧
        ∀ c, m.Has c → r.2.residentsAt c =
          (o.residentsAt c).filter (· ∉ p.map (·.slice)) ++
            (p.filter (·.origin = c)).map (·.slice)) := by
  unfold commit
  rw [← bind_assoc]
  refine Ends.bind (returns_relocate h hp.nodup hp.placed hp.target) ?_
  rintro moved ⟨hmoved, hchip, hresidents⟩
  refine Ends.bind (returns_bearable hmoved hchip.placed) fun b hb => ?_
  cases b with
  | true => exact .pure ⟨moved, hmoved, hchip, hb, fun _ => rfl, nofun⟩
  | false =>
    rw [if_neg (by decide), ← bind_assoc]
    refine Ends.bind (hp.returns_back h hmoved hchip hresidents) fun back hback => ?_
    exact .pure ⟨moved, hmoved, hchip, hb, nofun, fun _ => hback⟩

/-- After a commit the books agree, no chip bears too much, and slices that were not to move have
not; a proposal that does not stand has moved nothing. -/
theorem returns_commit (h : o.Books a.part) (hbear : o.Bearable a.part)
    (hcomplete : o.Complete a.part) (hp : a.Admissible o p) :
    Returns (a.commit o p) fun r => r.2.Books a.part ∧ r.2.Bearable a.part ∧
      r.2.Complete a.part ∧ (∀ s ∉ p.map (·.slice), r.2.chipAt s = o.chipAt s) ∧
      (r.1 = false → ∀ s, r.2.chipAt s = o.chipAt s) := by
  refine (hp.possible.returns_commit h.consistent).mono ?_
  rintro ⟨stands, o'⟩ ⟨moved, hconsistent, hchip, hstands, hmade, hback⟩
  cases stands with
  | true =>
    obtain rfl : o' = moved := hmade rfl
    have hmoved : o'.Books a.part := hchip.books hconsistent h hp.target
    refine ⟨hmoved, fun c hc k => ?_, hchip.complete hcomplete,
      fun s hs => hchip.chipAt_of_not_mem hs, nofun⟩
    by_cases htouched : ∃ move ∈ p, c = move.origin ∨ c = move.target
    · obtain ⟨move, hmove, hc'⟩ := htouched
      exact (hstands.1 rfl move hmove c hc').2 k
    · rw [h.load_congr hmoved hc.1 (hchip.chipAt_iff_of_untouched hp htouched)]
      exact hbear c hc k
  | false =>
    obtain ⟨hconsistent', hsame, _⟩ := hback rfl
    have hbooks : o'.Books a.part :=
      hconsistent'.books fun s c hs => h.live s c ((hsame s).symm.trans hs)
    refine ⟨hbooks, fun c hc k => ?_, fun s hs => ?_, fun s _ => hsame s, fun _ => hsame⟩
    · rw [h.load_congr hbooks hc.1 (fun s => by rw [hsame])]
      exact hbear c hc k
    · rw [hsame]
      exact hcomplete s hs

end Annealer

end HexFabric
