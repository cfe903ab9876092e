import HexFabric.Table.Collect

/-! What is in a route set, and the set of the places to which a node of a routing tree sends a
packet. -/

namespace HexFabric

namespace RouteSet

variable {r s : RouteSet} {l l' : Link}

/-- Nothing but links and cores is in the set. -/
def Proper (r : RouteSet) : Prop := r.bits.getLsbD 7 = false

theorem index_lt (l : Link) : l.index < 6 := by cases l <;> decide

theorem index_inj : l.index = l'.index ↔ l = l' := by
  refine ⟨fun h => ?_, fun h => h ▸ rfl⟩
  rw [← Link.ofIndex_index l, h, Link.ofIndex_index]

@[simp] theorem hasLink_empty (l : Link) : empty.hasLink l = false := by simp [hasLink, empty]

@[simp] theorem isLocal_empty : empty.isLocal = false := rfl

@[simp] theorem hasLink_withLink (r : RouteSet) (l l' : Link) :
    (r.withLink l).hasLink l' = (r.hasLink l' || decide (l' = l)) := by
  have hl := index_lt l
  have hl' := index_lt l'
  simp only [hasLink, withLink, BitVec.getLsbD_or, BitVec.getLsbD_twoPow]
  congr 1
  rw [decide_eq_true (by omega : l.index < 8), Bool.true_and]
  exact decide_eq_decide.2 (index_inj.trans eq_comm)

@[simp] theorem isLocal_withLink (r : RouteSet) (l : Link) :
    (r.withLink l).isLocal = r.isLocal := by
  have hl := index_lt l
  have hne : l.index ≠ localBit := by unfold localBit; omega
  simp [isLocal, withLink, hne]

@[simp] theorem hasLink_withLocal (r : RouteSet) (l : Link) :
    r.withLocal.hasLink l = r.hasLink l := by
  have hl := index_lt l
  have hne : localBit ≠ l.index := by unfold localBit; omega
  simp [hasLink, withLocal, hne]

@[simp] theorem isLocal_withLocal (r : RouteSet) : r.withLocal.isLocal = true := by
  simp [isLocal, withLocal, localBit]

theorem Proper.empty : empty.Proper := rfl

theorem Proper.withLink (h : r.Proper) (l : Link) : (r.withLink l).Proper := by
  have hl := index_lt l
  have hne : l.index ≠ 7 := by omega
  rw [Proper, RouteSet.withLink, BitVec.getLsbD_or, BitVec.getLsbD_twoPow,
    show r.bits.getLsbD 7 = false from h, decide_eq_false hne, Bool.and_false, Bool.or_false]

theorem Proper.withLocal (h : r.Proper) : r.withLocal.Proper := by
  rw [Proper, RouteSet.withLocal, BitVec.getLsbD_or, show r.bits.getLsbD 7 = false from h]
  rfl

theorem Proper.ext (hr : r.Proper) (hs : s.Proper) (hlinks : ∀ l, r.hasLink l = s.hasLink l)
    (hlocal : r.isLocal = s.isLocal) : r = s := by
  have hbits : ∀ i < 8, r.bits.getLsbD i = s.bits.getLsbD i := by
    intro i hi
    by_cases h7 : i = 7
    · rw [h7, show r.bits.getLsbD 7 = false from hr, show s.bits.getLsbD 7 = false from hs]
    by_cases h6 : i = 6
    · rw [h6]; exact hlocal
    have hindex : ∀ i < 6, (Link.ofIndex i).index = i := by decide
    have := hlinks (Link.ofIndex i)
    rwa [hasLink, hasLink, hindex i (by omega)] at this
  have heq : r.bits = s.bits := BitVec.eq_of_getLsbD_eq_iff.2 hbits
  cases r; cases s; cases heq
  rfl

theorem eq_of_withLink_opposite (h : empty.withLink l.opposite = empty.withLink l'.opposite) :
    l = l' := by
  have hlink : (empty.withLink l'.opposite).hasLink l.opposite = true := by simp [← h]
  have hopposite : l.opposite = l'.opposite := by simpa using hlink
  rw [← Link.opposite_opposite l, hopposite, Link.opposite_opposite]

theorem links_eq_singleton_iff : r.links = [l] ↔ ∀ l', r.hasLink l' = decide (l' = l) := by
  constructor
  · intro h l'
    have hmem : l' ∈ r.links ↔ l' = l := by rw [h, List.mem_singleton]
    rw [links, List.mem_filter] at hmem
    rw [Bool.eq_iff_iff, decide_eq_true_iff]
    exact ⟨fun h => hmem.1 ⟨Link.mem_all l', h⟩, fun h => (hmem.2 h).2⟩
  · intro h
    rw [links, funext h]
    cases l <;> rfl

theorem Proper.singleLink?_eq_some_iff (h : r.Proper) :
    r.singleLink? = some l ↔ r = RouteSet.empty.withLink l := by
  constructor
  · intro hl
    obtain ⟨hlocal, hlinks⟩ : r.isLocal = false ∧ r.links = [l] := by
      unfold singleLink? at hl
      split at hl
      · rename_i hlocal hlinks
        cases hl
        exact ⟨hlocal, hlinks⟩
      · cases hl
    refine h.ext (Proper.empty.withLink l) (fun l' => ?_) ?_
    · rw [links_eq_singleton_iff.1 hlinks, hasLink_withLink, hasLink_empty, Bool.false_or]
    · rw [hlocal, isLocal_withLink, isLocal_empty]
  · rintro rfl
    have hlinks : (RouteSet.empty.withLink l).links = [l] :=
      links_eq_singleton_iff.2 fun l' => by simp
    rw [singleLink?, hlinks, isLocal_withLink, isLocal_empty]

end RouteSet

namespace RouteNode

variable (n : RouteNode) (l : Link)

theorem foldl_withLink (ls : List Link) (r : RouteSet) :
    (ls.foldl .withLink r).hasLink l = (r.hasLink l || decide (l ∈ ls)) ∧
      (ls.foldl .withLink r).isLocal = r.isLocal ∧
      (r.Proper → (ls.foldl .withLink r).Proper) := by
  induction ls generalizing r with
  | nil => simp
  | cons l' rest ih =>
    obtain ⟨hlink, hlocal, hproper⟩ := ih (r.withLink l')
    refine ⟨?_, ?_, fun h => hproper (h.withLink l')⟩
    · rw [List.foldl_cons, hlink, RouteSet.hasLink_withLink, Bool.or_assoc]
      simp
    · rw [List.foldl_cons, hlocal, RouteSet.isLocal_withLink]

/-- A packet leaves a node over the links of its children and over its exits. -/
theorem hasLink_route : n.route.hasLink l ↔ (∃ j, (l, j) ∈ n.children) ∨ l ∈ n.exits := by
  have hfold := (foldl_withLink l (n.children.map (·.1) ++ n.exits) .empty).1
  have hlink : n.route.hasLink l =
      ((n.children.map (·.1) ++ n.exits).foldl RouteSet.withLink .empty).hasLink l := by
    unfold route
    by_cases hn : n.isLocal
    · simp [hn]
    · simp [hn]
  rw [hlink, hfold]
  simp

theorem mem_links_route {l : Link} :
    l ∈ n.route.links ↔ (∃ j, (l, j) ∈ n.children) ∨ l ∈ n.exits := by
  rw [RouteSet.links, List.mem_filter, and_iff_right l.mem_all, n.hasLink_route]

theorem isLocal_route : n.route.isLocal = n.isLocal := by
  have hfold := (foldl_withLink .east (n.children.map (·.1) ++ n.exits) .empty).2.1
  unfold route
  by_cases hn : n.isLocal
  · simp [hn]
  · rw [List.foldl_append] at hfold
    simp [hn, hfold]

theorem proper_route : n.route.Proper := by
  have hfold := (foldl_withLink .east (n.children.map (·.1) ++ n.exits) .empty).2.2 .empty
  unfold route
  by_cases hn : n.isLocal
  · simpa [hn] using hfold.withLocal
  · simpa [hn] using hfold

end RouteNode

/-- The packets of an entry that a node calls for go straight on if they leave on the link opposite
the one they came in on, and nowhere else. -/
theorem TreeEntry.isStraight_iff {e : TreeEntry} (h : e.entry.route.Proper) :
    e.isStraight ↔
      ∃ a, e.arrivedOn = some a ∧ e.entry.route = RouteSet.empty.withLink a.opposite := by
  have hsingle := fun l => h.singleLink?_eq_some_iff (l := l)
  unfold isStraight
  cases ha : e.arrivedOn with
  | none => simp
  | some came =>
    cases hl : e.entry.route.singleLink? with
    | none => simp [← hsingle, hl]
    | some goes => simp [← hsingle, hl]

end HexFabric
