import HexFabric.Placement.Occupancy
import HexFabric.Proofs.Machine
import HexFabric.Proofs.Resources
import Mathlib.Algebra.GroupWithZero.Nat
import Mathlib.Data.List.Nodup
import Mathlib.Data.List.Perm.Subperm

/-! The books of a placement in the making: `Books` says that they agree, that is that the slices on
each chip are those whose chip it is, and that what is taken of a chip is what these slices demand.
Putting a slice on a chip and taking it off keep the books, and so what a chip bears depends only on
where the slices are. -/

namespace HexFabric

namespace Partitioning

/-- How much of a resource a slice demands. -/
def need (part : Partitioning) (s : Nat) (k : Resource) : Nat :=
  ((part.slices[s]?).map (·.demand.quantity k)).getD 0

/-- How much of a resource some slices demand together. -/
def load (part : Partitioning) (slices : List Nat) (k : Resource) : Nat :=
  (slices.map (part.need · k)).sum

variable {part : Partitioning} {s : Nat} {k : Resource}

theorem need_eq {slice : Slice} (h : part.slices[s]? = some slice) (k : Resource) :
    part.need s k = slice.demand.quantity k := by
  rw [need, h, Option.map_some, Option.getD_some]

theorem returns_demandOf (h : s < part.slices.size) :
    Returns (part.demandOf s) fun d => ∀ k, d.quantity k = part.need s k :=
  Ends.bind (returns_fetch h) fun _ hslice => .pure fun k => (need_eq hslice k).symm

theorem load_nil (part : Partitioning) (k : Resource) : part.load [] k = 0 := rfl

theorem load_cons (part : Partitioning) (s : Nat) (l : List Nat) (k : Resource) :
    part.load (s :: l) k = part.need s k + part.load l k := by
  rw [load, List.map_cons, List.sum_cons, load]

theorem load_append (part : Partitioning) (l l' : List Nat) (k : Resource) :
    part.load (l ++ l') k = part.load l k + part.load l' k := by
  rw [load, List.map_append, List.sum_append, load, load]

theorem load_perm {l l' : List Nat} (h : l.Perm l') : part.load l k = part.load l' k :=
  (h.map _).sum_nat

theorem load_le_of_subset {l l' : List Nat} (h : l.Nodup) (hsubset : l ⊆ l') :
    part.load l k ≤ part.load l' k := by
  obtain ⟨l'', hperm, hsub⟩ := List.subperm_of_subset h hsubset
  obtain ⟨more, hmore⟩ := hsub.exists_perm_append
  rw [load_perm hmore, part.load_append, load_perm hperm]
  exact Nat.le_add_right _ _

/-- Lists of the same slices, each once, demand the same. -/
theorem load_congr {l l' : List Nat} (h : l.Nodup) (h' : l'.Nodup) (hmem : ∀ s, s ∈ l ↔ s ∈ l') :
    part.load l k = part.load l' k :=
  load_perm ((List.perm_ext_iff_of_nodup h h').2 hmem)

end Partitioning

namespace Occupancy

variable {m : Machine}

/-- What is taken of a chip. -/
def usedAt (o : Occupancy m) (c : Chip) : Resources := (o.used[m.cell c]?).getD .none

/-- The slices on a chip. -/
def residentsAt (o : Occupancy m) (c : Chip) : List Nat := (o.residents[m.cell c]?).getD []

/-- The chip of a slice. -/
def chipAt (o : Occupancy m) (s : Nat) : Option Chip := (o.chips[s]?).getD none

/-- New entries for a chip and a slice. -/
def enter (o : Occupancy m) (c : Chip) (s : Nat) (used : Resources) (residents : List Nat)
    (chip : Option Chip) : Occupancy m where
  used := o.used.setIfInBounds (m.cell c) used
  residents := o.residents.setIfInBounds (m.cell c) residents
  chips := o.chips.setIfInBounds s chip

/-- There is an entry for each cell and each slice. -/
structure Sized (o : Occupancy m) (slices : Nat) : Prop where
  used : o.used.size = m.cells
  residents : o.residents.size = m.cells
  chips : o.chips.size = slices

section Entries

variable {o : Occupancy m} {n s : Nat} {c : Chip} {u : Resources} {l : List Nat} {x : Option Chip}

theorem Sized.enter (h : o.Sized n) : (o.enter c s u l x).Sized n := by
  constructor
  · rw [Occupancy.enter, Array.size_setIfInBounds, h.used]
  · rw [Occupancy.enter, Array.size_setIfInBounds, h.residents]
  · rw [Occupancy.enter, Array.size_setIfInBounds, h.chips]

theorem Sized.usedAt_enter (h : o.Sized n) (hsize : m.size < 2 ^ 32) (hc : m.Has c) {c' : Chip}
    (hc' : m.Has c') : (o.enter c s u l x).usedAt c' = if c' = c then u else o.usedAt c' := by
  have hlt := Grid.cell_lt hsize hc
  simp only [usedAt, Occupancy.enter, Array.getElem?_setIfInBounds, h.used,
    Grid.cell_inj hsize hc hc']
  by_cases heq : c' = c
  · simp [heq, hlt]
  · simp [heq, Ne.symm heq]

theorem Sized.residentsAt_enter (h : o.Sized n) (hsize : m.size < 2 ^ 32) (hc : m.Has c)
    {c' : Chip} (hc' : m.Has c') :
    (o.enter c s u l x).residentsAt c' = if c' = c then l else o.residentsAt c' := by
  have hlt := Grid.cell_lt hsize hc
  simp only [residentsAt, Occupancy.enter, Array.getElem?_setIfInBounds, h.residents,
    Grid.cell_inj hsize hc hc']
  by_cases heq : c' = c
  · simp [heq, hlt]
  · simp [heq, Ne.symm heq]

theorem Sized.chipAt_enter (h : o.Sized n) (hs : s < n) (s' : Nat) :
    (o.enter c s u l x).chipAt s' = if s' = s then x else o.chipAt s' := by
  simp only [chipAt, Occupancy.enter, Array.getElem?_setIfInBounds, h.chips]
  by_cases heq : s' = s
  · simp [heq, hs]
  · simp [heq, Ne.symm heq]

theorem Sized.returns_used (h : o.Sized n) (hsize : m.size < 2 ^ 32) (hc : m.Has c) :
    Returns (fetch o.used (m.cell c)) fun u => u = o.usedAt c := by
  have hlt := Grid.cell_lt hsize hc
  rw [← h.used] at hlt
  refine (returns_fetch hlt).mono fun u hu => ?_
  rw [usedAt, hu, Option.getD_some]

theorem Sized.returns_residents (h : o.Sized n) (hsize : m.size < 2 ^ 32) (hc : m.Has c) :
    Returns (o.residentsOf c) fun l => l = o.residentsAt c := by
  have hlt := Grid.cell_lt hsize hc
  rw [← h.residents] at hlt
  refine (returns_fetch hlt).mono fun l hl => ?_
  rw [residentsAt, hl, Option.getD_some]

theorem Sized.returns_chips (h : o.Sized n) (hs : s < n) :
    Returns (fetch o.chips s) fun x => x = o.chipAt s := by
  rw [← h.chips] at hs
  refine (returns_fetch hs).mono fun x hx => ?_
  rw [chipAt, hx, Option.getD_some]

theorem Sized.lt_of_chipAt (h : o.Sized n) (hs : o.chipAt s = some c) : s < n := by
  by_contra hge
  rw [chipAt, Array.getElem?_eq_none (by rw [h.chips]; omega)] at hs
  cases hs

theorem Sized.returns_location (h : o.Sized n) (hs : o.chipAt s = some c) :
    Returns (o.location s) fun c' => c' = c := by
  refine Ends.bind (h.returns_chips (h.lt_of_chipAt hs)) fun x hx => ?_
  rw [hx, hs]
  exact .pure rfl

theorem Sized.location_eq (h : o.Sized n) (hs : o.chipAt s = some c) : o.location s = .ok c := by
  obtain ⟨_, hlocation, rfl⟩ := returns_iff.1 (h.returns_location hs)
  exact hlocation

theorem chipAt_of_location (h : o.location s = .ok c) : o.chipAt s = some c := by
  obtain ⟨x, hx, h⟩ := bind_eq_ok.1 h
  rw [chipAt, fetch_eq_ok.1 hx, Option.getD_some]
  cases x with
  | none => cases h
  | some c' => rw [pure_eq_ok.1 h]

theorem modify_eq_setIfInBounds {α : Type} {xs : Array α} {i : Nat} (d : α) (f : α → α) :
    xs.modify i f = xs.setIfInBounds i (f ((xs[i]?).getD d)) := by
  refine Array.ext_getElem? fun j => ?_
  rw [Array.getElem?_modify, Array.getElem?_setIfInBounds]
  by_cases hij : i = j
  · subst hij
    cases h : xs[i]? with
    | none => simp [Array.getElem?_eq_none_iff.1 h]
    | some a => simp [(Array.getElem?_eq_some_iff.1 h).1]
  · simp [hij]

/-- Putting a slice that has no chip on a chip. -/
theorem Sized.returns_assign (h : o.Sized n) (hsize : m.size < 2 ^ 32) (hs : s < n)
    (hfree : o.chipAt s = none) (hc : m.Has c) (d : Resources) :
    Returns (o.assign s c d) fun o' =>
      o' = o.enter c s ((o.usedAt c).add d) (o.residentsAt c ++ [s]) (some c) := by
  have hlt := Grid.cell_lt hsize hc
  show Ends (fetch o.chips s >>= _) _ _
  refine Ends.bind (h.returns_chips hs) fun x hx => ?_
  rw [hx, hfree, if_neg (by decide), adjust_of_lt (by rwa [h.used]),
    adjust_of_lt (by rwa [h.residents]), store_of_lt (by rwa [h.chips]),
    modify_eq_setIfInBounds .none, modify_eq_setIfInBounds []]
  exact .ok rfl

/-- Taking a slice off its chip. -/
theorem Sized.returns_unassign (h : o.Sized n) (hsize : m.size < 2 ^ 32)
    (hs : o.chipAt s = some c) (hc : m.Has c) {d : Resources}
    (hd : ∀ k, d.quantity k ≤ (o.usedAt c).quantity k) :
    Returns (o.unassign s d) fun o' => ∃ u,
      o' = o.enter c s u ((o.residentsAt c).filter (· ≠ s)) none ∧
      ∀ k, u.quantity k = (o.usedAt c).quantity k - d.quantity k := by
  have hlt := Grid.cell_lt hsize hc
  refine Ends.bind (h.returns_location hs) fun c' hc' => ?_
  rw [hc']
  show Ends (fetch o.used (m.cell c) >>= _) _ _
  refine Ends.bind (h.returns_used hsize hc) fun u hu => ?_
  rw [hu]
  refine Ends.bind (Resources.returns_sub hd) fun u' hu' => ?_
  rw [store_of_lt (by rwa [h.used])]
  show Ends (adjust o.residents (m.cell c) _ >>= _) _ _
  rw [adjust_of_lt (by rwa [h.residents])]
  show Ends (store o.chips s none >>= _) _ _
  rw [store_of_lt (by rw [h.chips]; exact h.lt_of_chipAt hs), modify_eq_setIfInBounds []]
  exact .ok ⟨u', rfl, hu'⟩

end Entries

/-! ### The books -/

/-- The books agree with each other and with the demands of the slices, and no slice is on a dead
chip. -/
structure Books (part : Partitioning) (o : Occupancy m) : Prop extends
    o.Sized part.slices.size where
  live : ∀ s c, o.chipAt s = some c → m.Live c
  nodup : ∀ c, m.Has c → (o.residentsAt c).Nodup
  mem_residentsAt : ∀ c, m.Has c → ∀ s, s ∈ o.residentsAt c ↔ o.chipAt s = some c
  quantity_usedAt : ∀ c, m.Has c → ∀ k, (o.usedAt c).quantity k = part.load (o.residentsAt c) k

@[simp] theorem chipAt_vacant (m : Machine) (n s : Nat) : (vacant m n).chipAt s = none := by
  simp only [chipAt, vacant, Array.getElem?_replicate]
  split <;> rfl

@[simp] theorem residentsAt_vacant (m : Machine) (n : Nat) (c : Chip) :
    (vacant m n).residentsAt c = [] := by
  simp only [residentsAt, vacant, Array.getElem?_replicate]
  split <;> rfl

theorem books_vacant (m : Machine) (part : Partitioning) :
    (vacant m part.slices.size).Books part := by
  have hused : ∀ c, (vacant m part.slices.size).usedAt c = .none := by
    intro c
    simp only [usedAt, vacant, Array.getElem?_replicate]
    split <;> rfl
  refine ⟨⟨by simp [vacant], by simp [vacant], by simp [vacant]⟩, fun s c h => ?_, fun c hc => ?_,
    fun c hc s => ?_, fun c hc k => ?_⟩
  · rw [chipAt_vacant] at h
    cases h
  · rw [residentsAt_vacant]
    exact List.nodup_nil
  · rw [residentsAt_vacant, chipAt_vacant]
    simp
  · rw [residentsAt_vacant, hused]
    rfl

/-- The books agree with each other and with the demands of the slices. -/
structure Consistent (part : Partitioning) (o : Occupancy m) : Prop extends
    o.Sized part.slices.size where
  has : ∀ s c, o.chipAt s = some c → m.Has c
  nodup : ∀ c, m.Has c → (o.residentsAt c).Nodup
  mem_residentsAt : ∀ c, m.Has c → ∀ s, s ∈ o.residentsAt c ↔ o.chipAt s = some c
  quantity_usedAt : ∀ c, m.Has c → ∀ k, (o.usedAt c).quantity k = part.load (o.residentsAt c) k

theorem Books.consistent {part : Partitioning} {o : Occupancy m} (h : o.Books part) :
    o.Consistent part :=
  ⟨h.toSized, fun s c hc => (h.live s c hc).1, h.nodup, h.mem_residentsAt, h.quantity_usedAt⟩

namespace Consistent

variable {part : Partitioning} {o o' : Occupancy m} {s : Nat} {c : Chip} {d : Resources}

theorem books (h : o.Consistent part) (hlive : ∀ s c, o.chipAt s = some c → m.Live c) :
    o.Books part :=
  ⟨h.toSized, hlive, h.nodup, h.mem_residentsAt, h.quantity_usedAt⟩

/-- A slice on a chip has the cell of the chip to itself, so there are words for all chips. -/
theorem size_lt (h : o.Consistent part) (hs : o.chipAt s = some c) : m.size < 2 ^ 32 := by
  by_contra hsize
  have hc := h.has s c hs
  have hmem := (h.mem_residentsAt c hc s).2 hs
  have hkept : m.cell c < m.cells := by
    by_contra hge
    rw [residentsAt, Array.getElem?_eq_none (by rw [h.residents]; omega)] at hmem
    cases hmem
  obtain ⟨d, hd, hne, hcell⟩ := Grid.exists_cell_eq (Nat.not_lt.1 hsize) hc hkept
  have hshared : s ∈ o.residentsAt d := by
    rwa [residentsAt, hcell]
  rw [h.mem_residentsAt d hd, hs, Option.some.injEq] at hshared
  exact hne hshared.symm

/-- Books stay consistent where the entry of a slice and that of the only chip it is on, before or
after, are replaced by entries that agree. -/
theorem entered {u : Resources} {l : List Nat} {x : Option Chip} (h : o.Consistent part)
    (hsize : m.size < 2 ^ 32) (hs : s < part.slices.size) (hc : m.Has c)
    (honly : ∀ c', o.chipAt s = some c' ∨ x = some c' → c' = c) (hnodup : l.Nodup)
    (hmem : ∀ s', s' ∈ l ↔ (if s' = s then x else o.chipAt s') = some c)
    (hu : ∀ k, u.quantity k = part.load l k) : (o.enter c s u l x).Consistent part := by
  refine ⟨h.enter, fun s' c' hc' => ?_, fun c' hc' => ?_, fun c' hc' s' => ?_, fun c' hc' k => ?_⟩
  · rw [h.chipAt_enter hs] at hc'
    split_ifs at hc' with heq
    · exact honly c' (.inr hc') ▸ hc
    · exact h.has s' c' hc'
  · rw [h.residentsAt_enter hsize hc hc']
    split_ifs with heq
    · exact hnodup
    · exact h.nodup c' hc'
  · rw [h.residentsAt_enter hsize hc hc', h.chipAt_enter hs]
    by_cases heq : c' = c
    · rw [if_pos heq, hmem, heq]
    rw [if_neg heq, h.mem_residentsAt c' hc']
    split_ifs with hs'
    · rw [hs']
      exact iff_of_false (fun hold => heq (honly c' (.inl hold)))
        fun hnew => heq (honly c' (.inr hnew))
    · rfl
  · rw [h.usedAt_enter hsize hc hc', h.residentsAt_enter hsize hc hc']
    split_ifs with heq
    · exact hu k
    · exact h.quantity_usedAt c' hc' k

/-- A slice put on a chip is the last to come there. -/
theorem assign (h : o.Consistent part) (hsize : m.size < 2 ^ 32) (hs : s < part.slices.size)
    (hfree : o.chipAt s = none) (hc : m.Has c) (hd : ∀ k, d.quantity k = part.need s k) :
    Returns (o.assign s c d) fun o' => o'.Consistent part ∧
      (∀ s', o'.chipAt s' = if s' = s then some c else o.chipAt s') ∧
      ∀ c', m.Has c' →
        o'.residentsAt c' = if c' = c then o.residentsAt c ++ [s] else o.residentsAt c' := by
  refine (h.returns_assign hsize hs hfree hc d).mono ?_
  rintro _ rfl
  refine ⟨h.entered hsize hs hc (fun c' honly => ?_) ?_ (fun s' => ?_) fun k => ?_, h.chipAt_enter hs,
    fun c' hc' => h.residentsAt_enter hsize hc hc'⟩
  · rw [hfree] at honly
    cases honly with
    | inl hold => cases hold
    | inr hnew => exact (Option.some.inj hnew).symm
  · rw [List.nodup_append]
    refine ⟨h.nodup c hc, List.nodup_singleton s, fun a ha b hb hab => ?_⟩
    rw [hab, List.mem_singleton.1 hb, h.mem_residentsAt c hc, hfree] at ha
    cases ha
  · rw [List.mem_append, List.mem_singleton, h.mem_residentsAt c hc]
    by_cases hs' : s' = s
    · simp [hs']
    · simp [hs']
  · rw [Resources.quantity_add, h.quantity_usedAt c hc, part.load_append, part.load_cons,
      part.load_nil, hd, Nat.add_zero]

theorem load_residentsAt (h : o.Consistent part) (hs : o.chipAt s = some c) (k : Resource) :
    part.load (o.residentsAt c) k =
      part.need s k + part.load ((o.residentsAt c).filter (· ≠ s)) k := by
  have hc := h.has s c hs
  have hmem := (h.mem_residentsAt c hc s).2 hs
  rw [← part.load_cons]
  refine Partitioning.load_congr (h.nodup c hc) ?_ fun s' => ?_
  · exact List.nodup_cons.2 ⟨by simp, (h.nodup c hc).filter _⟩
  · rw [List.mem_cons, List.mem_filter]
    by_cases heq : s' = s
    · simp [heq, hmem]
    · simp [heq]

/-- The slices that stay on a chip keep their order. -/
theorem unassign (h : o.Consistent part) (hs : o.chipAt s = some c)
    (hd : ∀ k, d.quantity k = part.need s k) :
    Returns (o.unassign s d) fun o' => o'.Consistent part ∧
      (∀ s', o'.chipAt s' = if s' = s then none else o.chipAt s') ∧
      ∀ c', m.Has c' → o'.residentsAt c' = (o.residentsAt c').filter (· ≠ s) := by
  have hc := h.has s c hs
  have hsize := h.size_lt hs
  have hle : ∀ k, d.quantity k ≤ (o.usedAt c).quantity k := by
    intro k
    rw [hd, h.quantity_usedAt c hc, h.load_residentsAt hs]
    exact Nat.le_add_right _ _
  refine (h.returns_unassign hsize hs hc hle).mono ?_
  rintro o' ⟨u, rfl, hu⟩
  refine ⟨h.entered hsize (h.lt_of_chipAt hs) hc (fun c' honly => ?_) ((h.nodup c hc).filter _)
    (fun s' => ?_) fun k => ?_, h.chipAt_enter (h.lt_of_chipAt hs), fun c' hc' => ?_⟩
  · rw [hs] at honly
    cases honly with
    | inl hold => exact (Option.some.inj hold).symm
    | inr hnew => cases hnew
  · rw [List.mem_filter, h.mem_residentsAt c hc]
    by_cases hs' : s' = s
    · simp [hs']
    · simp [hs']
  · rw [hu, h.quantity_usedAt c hc, h.load_residentsAt hs, hd, Nat.add_sub_cancel_left]
  · rw [h.residentsAt_enter hsize hc hc']
    by_cases heq : c' = c
    · rw [if_pos heq, heq]
    · rw [if_neg heq, List.filter_eq_self.2]
      intro s' hs'
      rw [h.mem_residentsAt c' hc'] at hs'
      refine decide_eq_true fun hsame => heq ?_
      rw [hsame, hs, Option.some.injEq] at hs'
      exact hs'.symm

end Consistent

namespace Books

variable {part : Partitioning} {o o' : Occupancy m} {s : Nat} {c : Chip} {d : Resources}

theorem assign (h : o.Books part) (hsize : m.size < 2 ^ 32) (hs : s < part.slices.size)
    (hfree : o.chipAt s = none) (hc : m.Live c) (hd : ∀ k, d.quantity k = part.need s k) :
    Returns (o.assign s c d) fun o' =>
      o'.Books part ∧ ∀ s', o'.chipAt s' = if s' = s then some c else o.chipAt s' := by
  refine (h.consistent.assign hsize hs hfree hc.1 hd).mono ?_
  rintro o' ⟨ho', hchip, _⟩
  refine ⟨ho'.books fun s' c' hc' => ?_, hchip⟩
  rw [hchip] at hc'
  split_ifs at hc'
  · cases hc'
    exact hc
  · exact h.live s' c' hc'

/-- What a chip bears depends only on where the slices are. -/
theorem load_congr (h : o.Books part) (h' : o'.Books part) (hc : m.Has c)
    (hchip : ∀ s, o'.chipAt s = some c ↔ o.chipAt s = some c) (k : Resource) :
    part.load (o'.residentsAt c) k = part.load (o.residentsAt c) k := by
  refine Partitioning.load_congr (h'.nodup c hc) (h.nodup c hc) fun s => ?_
  rw [h.mem_residentsAt c hc, h'.mem_residentsAt c hc, hchip]

/-- Putting a slice on a chip adds its demand there and changes nothing elsewhere. -/
theorem load_assign (h : o.Books part) (h' : o'.Books part) (hfree : o.chipAt s = none)
    (hchip : ∀ s', o'.chipAt s' = if s' = s then some c else o.chipAt s') {c' : Chip}
    (hc' : m.Has c') (k : Resource) :
    part.load (o'.residentsAt c') k =
      part.load (o.residentsAt c') k + if c' = c then part.need s k else 0 := by
  by_cases heq : c' = c
  · rw [if_pos heq, Nat.add_comm, ← part.load_cons]
    refine Partitioning.load_congr (h'.nodup c' hc') ?_ fun s' => ?_
    · refine List.nodup_cons.2 ⟨fun hs => ?_, h.nodup c' hc'⟩
      rw [h.mem_residentsAt c' hc', hfree] at hs
      cases hs
    · rw [h'.mem_residentsAt c' hc', hchip, List.mem_cons, h.mem_residentsAt c' hc', heq]
      by_cases hs' : s' = s
      · simp [hs']
      · simp [hs']
  · rw [if_neg heq, Nat.add_zero]
    refine h.load_congr h' hc' (fun s' => ?_) k
    rw [hchip]
    by_cases hs' : s' = s
    · simp [hs', hfree, Ne.symm heq]
    · simp [hs']

end Books

/-- No live chip bears more than it offers. -/
def Bearable (part : Partitioning) (o : Occupancy m) : Prop :=
  ∀ c, m.Live c → ∀ k, part.load (o.residentsAt c) k ≤ (m.resourcesAt c).quantity k

theorem bearable_vacant (m : Machine) (part : Partitioning) :
    (vacant m part.slices.size).Bearable part := by
  intro c hc k
  rw [residentsAt_vacant]
  exact Nat.zero_le _

/-! ### Room -/

/-- How much of a resource is left of a chip. -/
def left (part : Partitioning) (o : Occupancy m) (c : Chip) (k : Resource) : Nat :=
  (m.resourcesAt c).quantity k - part.load (o.residentsAt c) k

/-- Chip `c` is live and has room for slice `s`. -/
def HasRoom (part : Partitioning) (o : Occupancy m) (s : Nat) (c : Chip) : Prop :=
  m.Live c ∧ ∀ k, part.need s k ≤ o.left part c k

/-- Every slice that has a chip in `o` has the same one in `o'`. -/
def Extends (o o' : Occupancy m) : Prop := ∀ s c, o.chipAt s = some c → o'.chipAt s = some c

section Room

variable {part : Partitioning} {o o' : Occupancy m} {s : Nat} {c : Chip} {d : Resources}

/-- Chips fill up as slices are added. -/
theorem Books.left_anti (h : o.Books part) (h' : o'.Books part) (hextends : o.Extends o')
    (hc : m.Has c) (k : Resource) : o'.left part c k ≤ o.left part c k := by
  refine Nat.sub_le_sub_left (Partitioning.load_le_of_subset (h.nodup c hc) fun s hs => ?_) _
  rw [h.mem_residentsAt c hc] at hs
  exact (h'.mem_residentsAt c hc s).2 (hextends s c hs)

theorem HasRoom.of_extends (hroom : o'.HasRoom part s c) (h : o.Books part) (h' : o'.Books part)
    (hextends : o.Extends o') : o.HasRoom part s c :=
  ⟨hroom.1, fun k => Nat.le_trans (hroom.2 k) (h.left_anti h' hextends hroom.1.1 k)⟩

theorem Sized.returns_remaining {n : Nat} (h : o.Sized n) (hsize : m.size < 2 ^ 32) (c : Chip) :
    Returns (o.remaining c) fun r => m.Live c →
      ∀ k, r.quantity k = (m.resourcesAt c).quantity k - (o.usedAt c).quantity k := by
  unfold remaining
  by_cases hc : m.Live c
  · rw [m.capacity?_of_live hc]
    refine Ends.bind (h.returns_used hsize hc.1) fun u hu => .pure fun _ k => ?_
    rw [Resources.quantity_remainingOf, hu]
  · rw [m.capacity?_of_not_live hc]
    exact .pure fun hlive => absurd hlive hc

/-- A demand fits a live chip that has as much left of everything. -/
theorem Sized.returns_fits {n : Nat} (h : o.Sized n) (hsize : m.size < 2 ^ 32) (c : Chip)
    (d : Resources) : Returns (o.fits c d) fun b => b = true ↔ m.Live c ∧
      ∀ k, d.quantity k ≤ (m.resourcesAt c).quantity k - (o.usedAt c).quantity k := by
  unfold fits
  by_cases hc : m.Live c
  · rw [if_pos hc]
    refine Ends.bind (h.returns_remaining hsize c) fun r hr => .pure ?_
    simp only [Resources.fitsWithin_iff, hr hc, hc, true_and]
  · rw [if_neg hc]
    exact .pure ⟨nofun, fun hfits => absurd hfits.1 hc⟩

theorem Sized.returns_withinCapacity {n : Nat} (h : o.Sized n) (hsize : m.size < 2 ^ 32)
    (c : Chip) : Returns (o.withinCapacity c) fun b => b = true ↔ m.Live c ∧
      ∀ k, (o.usedAt c).quantity k ≤ (m.resourcesAt c).quantity k := by
  unfold withinCapacity
  by_cases hc : m.Live c
  · rw [m.capacity?_of_live hc]
    refine Ends.bind (h.returns_used hsize hc.1) fun u hu => .pure ?_
    rw [Resources.fitsWithin_iff, hu]
    simp only [hc, true_and]
  · rw [m.capacity?_of_not_live hc]
    exact .pure (by simp [hc])

theorem Books.returns_remaining (h : o.Books part) (hsize : m.size < 2 ^ 32) (c : Chip) :
    Returns (o.remaining c) fun r => m.Live c → ∀ k, r.quantity k = o.left part c k := by
  refine (h.toSized.returns_remaining hsize c).mono fun r hr hc k => ?_
  rw [hr hc, h.quantity_usedAt c hc.1, left]

theorem Books.returns_fits (h : o.Books part) (hsize : m.size < 2 ^ 32) (c : Chip)
    (hd : ∀ k, d.quantity k = part.need s k) :
    Returns (o.fits c d) fun b => b = true ↔ o.HasRoom part s c := by
  refine (h.toSized.returns_fits hsize c d).mono fun b hb => hb.trans (and_congr_right fun hc => ?_)
  simp only [hd, h.quantity_usedAt c hc.1, left]

theorem Consistent.returns_withinCapacity (h : o.Consistent part) (hsize : m.size < 2 ^ 32)
    (c : Chip) : Returns (o.withinCapacity c) fun b => b = true ↔ m.Live c ∧ ∀ k,
      part.load (o.residentsAt c) k ≤ (m.resourcesAt c).quantity k := by
  refine (h.toSized.returns_withinCapacity hsize c).mono fun b hb =>
    hb.trans (and_congr_right fun hc => ?_)
  simp only [h.quantity_usedAt c hc.1]

end Room

end Occupancy

end HexFabric
