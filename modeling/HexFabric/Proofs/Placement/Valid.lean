import HexFabric.Proofs.Placement.Occupancy

/-! Finished placements. A placement fits a machine if every slice is on a live chip and no chip
bears more than it offers, which is what makes it valid. Complete books that agree make such a
placement, and books can be made of it. -/

namespace HexFabric

namespace Placement

/-- The slices on a chip. -/
def slicesOn (p : Placement) (c : Chip) : List Nat :=
  (p.chips.toList.zipIdx.filter (·.1 = c)).map (·.2)

/-- How much of a resource is left of a chip. -/
def left (p : Placement) (part : Partitioning) (m : Machine) (c : Chip) (k : Resource) : Nat :=
  (m.resourcesAt c).quantity k - part.load (p.slicesOn c) k

/-- Every slice has a live chip. -/
structure Placed (p : Placement) (part : Partitioning) (m : Machine) : Prop where
  size : p.chips.size = part.slices.size
  live : ∀ c ∈ p.chips, m.Live c

/-- Every slice has a live chip, and no chip bears more than it offers. -/
structure Fits (p : Placement) (part : Partitioning) (m : Machine) : Prop
    extends Placed p part m where
  load : ∀ c, m.Live c → ∀ k, part.load (p.slicesOn c) k ≤ (m.resourcesAt c).quantity k

variable {p : Placement} {part : Partitioning} {m : Machine} {c : Chip} {s : Nat}

theorem mem_slicesOn : s ∈ p.slicesOn c ↔ p.chips[s]? = some c := by
  simp [slicesOn, List.mem_zipIdx_iff_getElem?]

theorem nodup_slicesOn (p : Placement) (c : Chip) : (p.slicesOn c).Nodup := by
  refine (List.filter_sublist.map _).nodup ?_
  rw [List.zipIdx_map_snd]
  exact List.nodup_range'

theorem Placed.exists_chip (h : p.Placed part m) (hs : s < part.slices.size) :
    ∃ c, p.chips[s]? = some c ∧ m.Live c := by
  rw [← h.size] at hs
  exact ⟨p.chips[s], Array.getElem?_eq_getElem hs, h.live _ (Array.getElem_mem hs)⟩

theorem Placed.returns_chipOf (h : p.Placed part m) (hs : s < part.slices.size) :
    Returns (p.chipOf s) fun c => p.chips[s]? = some c ∧ m.Live c := by
  obtain ⟨c, hc, hlive⟩ := h.exists_chip hs
  refine (returns_fetch (by rwa [h.size])).mono fun c' hc' => ⟨hc', ?_⟩
  rw [hc] at hc'
  cases hc'
  exact hlive

theorem Placed.of_sameChips {n : Machine} (h : p.Placed part n) (hsame : n.SameChips m) :
    p.Placed part m :=
  ⟨h.size, fun c hc => hsame.live_iff.1 (h.live c hc)⟩

/-- There is a usage exactly if all chips are live, and then that of each chip is the demand of its
slices. -/
theorem returns_usage (hsize : m.size < 2 ^ 32) (rest : List (Chip × Nat))
    (hslice : ∀ e ∈ rest, e.2 < part.slices.size) (used : Array Resources)
    (hused : used.size = m.cells) :
    Returns (usage m part rest used) fun r => (r.isSome ↔ ∀ e ∈ rest, m.Live e.1) ∧
      ∀ total ∈ r, total.size = m.cells ∧
        ∀ c, m.Has c → ∀ k, ((total[m.cell c]?).getD .none).quantity k =
          ((used[m.cell c]?).getD .none).quantity k +
            part.load ((rest.filter (·.1 = c)).map (·.2)) k := by
  induction rest generalizing used with
  | nil =>
    refine .ok ⟨by simp, fun total htotal => ?_⟩
    cases htotal
    exact ⟨hused, fun c hc k => rfl⟩
  | cons e rest ih =>
    obtain ⟨c, s⟩ := e
    by_cases hc : m.Live c
    · have hlt : m.cell c < used.size := hused ▸ Grid.cell_lt hsize hc.1
      rw [usage, if_pos hc]
      refine Ends.bind (part.returns_demandOf (hslice (c, s) List.mem_cons_self)) fun d hd => ?_
      rw [adjust_of_lt hlt]
      refine (ih (fun e he => hslice e (List.mem_cons_of_mem _ he))
        (used.modify (m.cell c) (·.add d)) (by simpa using hused)).mono ?_
      rintro r ⟨hr, htotal⟩
      refine ⟨by simp [hr, hc], fun total hmem => ⟨(htotal total hmem).1, fun c' hc' k => ?_⟩⟩
      rw [(htotal total hmem).2 c' hc' k, Array.getElem?_modify]
      by_cases heq : c = c'
      · subst heq
        rw [if_pos rfl, List.filter_cons_of_pos (by simp), List.map_cons, part.load_cons, ← hd,
          Array.getElem?_eq_getElem hlt, Option.map_some, Option.getD_some, Option.getD_some,
          Resources.quantity_add, Nat.add_assoc]
      · rw [if_neg ((Grid.cell_inj hsize hc.1 hc').not.2 heq),
          List.filter_cons_of_neg (by simpa using heq)]
    · rw [usage, if_neg hc]
      exact .pure ⟨by simp [hc], nofun⟩

/-- A placement is valid exactly if it fits. -/
theorem returns_isValid (p : Placement) (part : Partitioning) (hsize : m.size < 2 ^ 32) :
    Returns (p.isValid part m) fun b => b = true ↔ p.Fits part m := by
  unfold isValid
  by_cases hall : p.chips.size = part.slices.size
  · have hslice : ∀ e ∈ p.chips.toList.zipIdx, e.2 < part.slices.size :=
      fun e he => hall ▸ (Array.getElem?_eq_some_iff.1 (getElem?_of_mem_zipIdx he)).1
    have hlive : (∀ e ∈ p.chips.toList.zipIdx, m.Live e.1) ↔ ∀ c ∈ p.chips, m.Live c := by
      simp [List.mem_zipIdx_iff_getElem?, Array.mem_iff_getElem?]
    rw [if_neg (not_not.2 hall)]
    refine Ends.bind (returns_usage hsize _ hslice (Array.replicate m.cells .none)
      Array.size_replicate) ?_
    rintro (_ | total) ⟨hsome, htotal⟩
    · refine .pure ⟨nofun, fun h => ?_⟩
      exact absurd (hsome.2 (hlive.2 h.live)) (by decide)
    · obtain ⟨hcells, htotal⟩ := htotal total rfl
      refine (Ends.allM (S := fun c => ∀ k, part.load (p.slicesOn c) k ≤
        (m.resourcesAt c).quantity k) fun c hc => ?_).mono fun b hb => hb.trans ?_
      · have hc := (Machine.mem_liveChips.1 hc).1
        refine Ends.bind (returns_fetch (hcells ▸ Grid.cell_lt hsize hc)) fun u hu => .pure ?_
        rw [Resources.fitsWithin_iff]
        refine forall_congr' fun k => ?_
        have hload := htotal c hc k
        rw [hu, Array.getElem?_replicate, if_pos (Grid.cell_lt hsize hc), Option.getD_some,
          Option.getD_some, Resources.quantity_none, Nat.zero_add] at hload
        rw [hload, slicesOn]
      · simp only [Machine.mem_liveChips]
        exact ⟨fun hload => ⟨⟨hall, hlive.1 (hsome.1 rfl)⟩, hload⟩, fun h => h.load⟩
  · rw [if_pos hall]
    exact .pure ⟨nofun, fun h => absurd h.size hall⟩

theorem isValid_eq_ok_iff (hsize : m.size < 2 ^ 32) :
    p.isValid part m = .ok true ↔ p.Fits part m := by
  obtain ⟨b, hb, hfits⟩ := returns_iff.1 (p.returns_isValid part hsize)
  rw [hb, Except.ok.injEq, hfits]

end Placement

namespace Occupancy

variable {m : Machine} {part : Partitioning} {o : Occupancy m}

/-- Every slice has a chip. -/
def Complete (part : Partitioning) (o : Occupancy m) : Prop :=
  ∀ s < part.slices.size, ∃ c, o.chipAt s = some c

theorem Sized.returns_toPlacement (h : o.Sized part.slices.size) (hcomplete : o.Complete part) :
    Returns o.toPlacement fun p =>
      p.chips.size = part.slices.size ∧ ∀ s, p.chips[s]? = o.chipAt s := by
  unfold toPlacement
  refine Ends.bind (Ends.mapM (E := fun _ => False) (S := fun e c => e.1 = some c)
    fun e he => ?_) fun chips hchips => .pure ⟨?_, fun s => ?_⟩
  · have hs : o.chips[e.2]? = some e.1 := getElem?_of_mem_zipIdx he
    obtain ⟨c, hc⟩ := hcomplete e.2 (h.chips ▸ (Array.getElem?_eq_some_iff.1 hs).1)
    rw [chipAt, hs, Option.getD_some] at hc
    rw [hc]
    exact .ok rfl
  · have := hchips.length_eq
    simp only [List.length_zipIdx, Array.length_toList, h.chips] at this
    simpa using this.symm
  · rw [chipAt, List.getElem?_toArray]
    cases hs : o.chips[s]? with
    | none =>
      have hlen := hchips.length_eq
      rw [List.length_zipIdx, Array.length_toList] at hlen
      rw [Option.getD_none, List.getElem?_eq_none_iff, ← hlen]
      exact Array.getElem?_eq_none_iff.1 hs
    | some x =>
      have hx : o.chips.toList.zipIdx[s]? = some (x, s) := by simp [hs]
      obtain ⟨c, hc, heq⟩ := exists_right hchips hx
      rw [hc, Option.getD_some]
      exact heq.symm

/-- The books and the placement agree on what a chip bears. -/
theorem Books.load_slicesOn (h : o.Books part) {p : Placement}
    (hchip : ∀ s, p.chips[s]? = o.chipAt s) {c : Chip} (hc : m.Has c) (k : Resource) :
    part.load (p.slicesOn c) k = part.load (o.residentsAt c) k := by
  refine Partitioning.load_congr (p.nodup_slicesOn c) (h.nodup c hc) fun s => ?_
  rw [Placement.mem_slicesOn, h.mem_residentsAt c hc, hchip]

theorem Books.fits (h : o.Books part) (hbear : o.Bearable part) {p : Placement}
    (hsize : p.chips.size = part.slices.size) (hchip : ∀ s, p.chips[s]? = o.chipAt s) :
    p.Fits part m := by
  refine ⟨⟨hsize, fun c hc => ?_⟩, fun c hc k => ?_⟩
  · obtain ⟨s, hs⟩ := Array.mem_iff_getElem?.1 hc
    exact h.live s c (by rw [← hchip, hs])
  · rw [h.load_slicesOn hchip hc.1]
    exact hbear c hc k

theorem Consistent.returns_assignAll {rest : List (Chip × Nat)} (h : o.Consistent part)
    (hsize : rest ≠ [] → m.size < 2 ^ 32) (hhas : ∀ e ∈ rest, m.Has e.1)
    (hslice : ∀ e ∈ rest, e.2 < part.slices.size)
    (hfree : ∀ e ∈ rest, o.chipAt e.2 = none) (hnodup : (rest.map (·.2)).Nodup) :
    Returns (assignAll part rest o) fun o' => o'.Consistent part ∧
      (∀ s c, o'.chipAt s = some c ↔ (c, s) ∈ rest ∨ o.chipAt s = some c) ∧
      ∀ c, m.Has c → o'.residentsAt c = o.residentsAt c ++ (rest.filter (·.1 = c)).map (·.2) := by
  induction rest generalizing o with
  | nil => exact .ok ⟨h, by simp, by simp⟩
  | cons e rest ih =>
    obtain ⟨c, s⟩ := e
    have hsize := hsize (List.cons_ne_nil _ _)
    rw [List.map_cons, List.nodup_cons] at hnodup
    have hs : s < part.slices.size := hslice (c, s) List.mem_cons_self
    have hsfree : o.chipAt s = none := hfree (c, s) List.mem_cons_self
    rw [assignAll]
    refine Ends.bind (part.returns_demandOf hs) fun d hd => ?_
    refine Ends.bind (h.assign hsize hs hsfree (hhas (c, s) List.mem_cons_self) hd) ?_
    rintro o' ⟨ho', hchip, hresidents⟩
    have hne : ∀ e ∈ rest, e.2 ≠ s := fun e he heq => hnodup.1 (List.mem_map.2 ⟨e, he, heq⟩)
    refine (ih ho' (fun _ => hsize) (fun e he => hhas e (List.mem_cons_of_mem _ he))
      (fun e he => hslice e (List.mem_cons_of_mem _ he)) (fun e he => ?_) hnodup.2).mono ?_
    · rw [hchip, if_neg (hne e he)]
      exact hfree e (List.mem_cons_of_mem _ he)
    · rintro o'' ⟨ho'', hchip', hresidents'⟩
      refine ⟨ho'', fun s' c' => ?_, fun c' hc' => ?_⟩
      · rw [hchip', hchip, List.mem_cons, Prod.mk.injEq]
        by_cases heq : s' = s
        · have hnot : (c', s) ∉ rest := fun hmem => hne _ hmem rfl
          simp [heq, hnot, hsfree, eq_comm]
        · simp [heq]
      · rw [hresidents' c' hc', hresidents c' hc']
        by_cases heq : c' = c
        · rw [if_pos heq, List.filter_cons_of_pos (by simp [heq]), List.map_cons,
            List.append_assoc, List.singleton_append, heq]
        · rw [if_neg heq, List.filter_cons_of_neg (by simp [Ne.symm heq])]

theorem Books.returns_assignAll {rest : List (Chip × Nat)} (h : o.Books part)
    (hsize : m.size < 2 ^ 32) (hlive : ∀ e ∈ rest, m.Live e.1)
    (hslice : ∀ e ∈ rest, e.2 < part.slices.size)
    (hfree : ∀ e ∈ rest, o.chipAt e.2 = none) (hnodup : (rest.map (·.2)).Nodup) :
    Returns (assignAll part rest o) fun o' => o'.Books part ∧
      ∀ s c, o'.chipAt s = some c ↔ (c, s) ∈ rest ∨ o.chipAt s = some c := by
  refine (h.consistent.returns_assignAll (fun _ => hsize) (fun e he => (hlive e he).1) hslice hfree
    hnodup).mono ?_
  rintro o' ⟨ho', hchip, _⟩
  refine ⟨ho'.books fun s c hc => ?_, hchip⟩
  rcases (hchip s c).1 hc with hmem | hc
  · exact hlive _ hmem
  · exact h.live s c hc

end Occupancy

open Occupancy in
/-- The books of a placement that fits. -/
theorem Placement.Fits.returns_ofPlacement {p : Placement} {part : Partitioning} {m : Machine}
    (h : p.Fits part m) (hsize : m.size < 2 ^ 32) :
    Returns (ofPlacement m part p) fun o => o.Books part ∧ o.Complete part ∧ o.Bearable part ∧
      ∀ s, o.chipAt s = p.chips[s]? := by
  have hnodup : (p.chips.toList.zipIdx.map (·.2)).Nodup := by
    rw [List.zipIdx_map_snd]
    exact List.nodup_range'
  rw [ofPlacement, h.size]
  refine ((books_vacant m part).returns_assignAll hsize
    (fun e he => h.live _ (Array.mem_of_getElem? (getElem?_of_mem_zipIdx he)))
    (fun e he => h.size ▸ (Array.getElem?_eq_some_iff.1 (getElem?_of_mem_zipIdx he)).1)
    (fun e _ => chipAt_vacant m _ e.2) hnodup).mono ?_
  rintro o ⟨ho, hchip⟩
  have hchip : ∀ s, o.chipAt s = p.chips[s]? := by
    refine fun s => Option.ext fun c => ?_
    rw [hchip, chipAt_vacant, List.mem_zipIdx_iff_getElem?, Array.getElem?_toList]
    simp
  refine ⟨ho, fun s hs => ?_, fun c hc k => ?_, hchip⟩
  · obtain ⟨c, hc, _⟩ := h.exists_chip hs
    exact ⟨c, (hchip s).trans hc⟩
  · rw [← ho.load_slicesOn (fun s => (hchip s).symm) hc.1]
    exact h.load c hc k

end HexFabric
