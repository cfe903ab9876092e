import HexFabric.Key.Allocation
import HexFabric.Proofs.Key.Layout
import HexFabric.Proofs.Key.Pattern
import HexFabric.Proofs.Placement.Valid

/-! The keys of nets. Nets are numbered on their source chip, and the fields of keys are wide enough
for coordinates and numbers. So a key says which chip its net comes from and which of the nets from
there it is, and no packet belongs to two nets: `Partitioning.allocateKeys_identifies`. -/

namespace HexFabric

/-- How many of some nets come from a chip. -/
def Placement.netsFrom (p : Placement) (nets : List SlicedNet) (c : Chip) : Nat :=
  nets.countP fun n => p.chips[n.source]? = some c

/-! ### The widths of fields -/

/-- Coordinates, and as many numbers as some chip needs, fit their fields. -/
structure KeyLayout.Suffices (l : KeyLayout) (g : Grid) (counts : List (Chip × Nat)) : Prop where
  total : l.totalBits ≤ 32
  width : g.width ≤ 2 ^ l.xBits
  height : g.height ≤ 2 ^ l.yBits
  index : ∀ e ∈ counts, e.2 ≤ 2 ^ l.indexBits

namespace KeyPolicy

/-- Fixed fields fit a word. -/
def Sound : KeyPolicy → Prop
  | narrowest => True
  | fixed l => l.totalBits ≤ 32

theorem ends_validate (policy : KeyPolicy) :
    Ends policy.validate (fun e => (Failure.error e).Expected) fun _ => policy.Sound := by
  cases policy with
  | narrowest => exact .ok trivial
  | fixed l =>
    unfold validate
    dsimp only
    by_cases h : 32 < l.totalBits
    · rw [if_pos h]
      exact .throw trivial
    · rw [if_neg h]
      exact .ok (Nat.not_lt.1 h)

end KeyPolicy

namespace Partitioning

theorem le_busiest {counts : List (Chip × Nat)} {e : Chip × Nat} (h : e ∈ counts) :
    e.2 ≤ (busiest counts).2 := by
  suffices ∀ (counts : List (Chip × Nat)) (best : Chip × Nat), ∀ e ∈ best :: counts,
      e.2 ≤ (counts.foldl (fun best e => if best.2 < e.2 then e else best) best).2 from
    this counts (⟨0, 0⟩, 0) e (List.mem_cons_of_mem _ h)
  intro counts
  induction counts with
  | nil => simp
  | cons a rest ih =>
    intro best e he
    have hrest := ih (if best.2 < a.2 then a else best)
    have hbest := hrest _ List.mem_cons_self
    have hstep : best.2 ≤ (if best.2 < a.2 then a else best).2 ∧
        a.2 ≤ (if best.2 < a.2 then a else best).2 := by
      by_cases hlt : best.2 < a.2
      · rw [if_pos hlt]
        exact ⟨Nat.le_of_lt hlt, Nat.le_refl _⟩
      · rw [if_neg hlt]
        exact ⟨Nat.le_refl _, Nat.not_lt.1 hlt⟩
    rw [List.foldl_cons]
    rcases List.mem_cons.1 he with rfl | he
    · exact Nat.le_trans hstep.1 hbest
    · rcases List.mem_cons.1 he with rfl | he
      · exact Nat.le_trans hstep.2 hbest
      · exact hrest e (List.mem_cons_of_mem _ he)

/-- Fixed widths are used if coordinates fit, unless some chip has more nets than can be numbered. -/
theorem chooseLayout_fixed (g : Grid) (counts : List (Chip × Nat)) (l : KeyLayout) :
    chooseLayout g counts (.fixed l) =
      if g.width ≤ 2 ^ l.xBits ∧ g.height ≤ 2 ^ l.yBits then
        match counts.find? fun e => 2 ^ l.indexBits < e.2 with
        | some (chip, count) =>
          .error (.keyspaceExhausted chip count l.indexBits (2 ^ l.indexBits))
        | none => .ok l
      else
        .error (.invalidConfig (.coordinatesTooNarrow l.xBits l.yBits g.width g.height)) := by
  have hwide : (l.xBits < bitsFor g.width ∨ l.yBits < bitsFor g.height) ↔
      ¬(g.width ≤ 2 ^ l.xBits ∧ g.height ≤ 2 ^ l.yBits) := by
    rw [← bitsFor_le_iff, ← bitsFor_le_iff]
    omega
  unfold chooseLayout exhausted KeyLayout.indexCapacity
  simp only [Nat.one_shiftLeft]
  exact (if_congr hwide rfl rfl).trans (ite_not _ _ _)

theorem ends_chooseLayout {policy : KeyPolicy} (hpolicy : policy.Sound) (g : Grid)
    (counts : List (Chip × Nat)) :
    Ends (chooseLayout g counts policy) (fun e => (Failure.error e).Expected)
      fun l => l.Suffices g counts := by
  cases policy with
  | narrowest =>
    unfold chooseLayout
    dsimp only
    split_ifs with htotal
    · exact .throw trivial
    · refine .ok ⟨Nat.not_lt.1 htotal, le_two_pow_bitsFor _, le_two_pow_bitsFor _, fun e he => ?_⟩
      exact Nat.le_trans (le_busiest he) (le_two_pow_bitsFor _)
  | fixed l =>
    rw [chooseLayout_fixed]
    split_ifs with hwide
    · cases hfind : counts.find? fun e => 2 ^ l.indexBits < e.2 with
      | some e => exact .throw trivial
      | none =>
        refine .ok ⟨hpolicy, hwide.1, hwide.2, fun e he => ?_⟩
        simpa using List.find?_eq_none.1 hfind e he
    · exact .throw trivial

/-! ### Numbering -/

/-- `counts` has a number for each cell, which is that of the chip there. -/
structure Counted (g : Grid) (counts : Array Nat) (count : Chip → Nat) : Prop where
  size : counts.size = g.cells
  eq : ∀ c, g.Has c → counts[g.cell c]? = some (count c)

theorem counted_replicate {g : Grid} (hsize : g.size < 2 ^ 32) :
    Counted g (Array.replicate g.cells 0) fun _ => 0 :=
  ⟨Array.size_replicate, fun c hc => by
    rw [Array.getElem?_replicate, if_pos (Grid.cell_lt hsize hc)]⟩

variable {g : Grid} {counts : Array Nat} {count : Chip → Nat} {c : Chip}

theorem Counted.adjust_eq (h : Counted g counts count) (hsize : g.size < 2 ^ 32) (hc : g.Has c) :
    Returns (adjust counts (g.cell c) (· + 1)) fun counts' =>
      Counted g counts' fun c' => count c' + if c' = c then 1 else 0 := by
  rw [adjust_of_lt (h.size ▸ Grid.cell_lt hsize hc)]
  refine .ok ⟨by simpa using h.size, fun c' hc' => ?_⟩
  rw [Array.getElem?_modify, h.eq c' hc']
  by_cases heq : c = c'
  · simp [heq]
  · rw [if_neg ((Grid.cell_inj hsize hc hc').not.2 heq), if_neg (Ne.symm heq), Nat.add_zero]

theorem returns_sourceCounts (hsize : g.size < 2 ^ 32) {sources : List Chip}
    (h : ∀ c ∈ sources, g.Has c) :
    Returns (sourceCounts g sources) fun counts => Counted g counts (sources.count ·) := by
  suffices ∀ (sources : List Chip) (counts : Array Nat) (count : Chip → Nat),
      (∀ c ∈ sources, g.Has c) → Counted g counts count →
      Returns (sources.foldlM (fun counts c => adjust counts (g.cell c) (· + 1)) counts)
        fun counts => Counted g counts fun c => count c + sources.count c by
    refine (this sources _ _ h (counted_replicate hsize)).mono fun counts hcounts => ?_
    simpa only [Nat.zero_add] using hcounts
  intro sources
  induction sources with
  | nil => exact fun counts count _ hcounts => .pure hcounts
  | cons c rest ih =>
    intro counts count hsources hcounts
    rw [List.foldlM_cons]
    refine Ends.bind (hcounts.adjust_eq hsize (hsources c List.mem_cons_self)) fun counts' hcounts' => ?_
    refine (ih counts' _ (fun c hc => hsources c (List.mem_cons_of_mem _ hc)) hcounts').mono ?_
    rintro total ⟨hcells, htotal⟩
    refine ⟨hcells, fun c' hc' => ?_⟩
    rw [htotal c' hc', List.count_cons, Nat.add_assoc, Nat.add_comm (if c' = c then 1 else 0)]
    by_cases heq : c = c'
    · simp [heq]
    · simp [heq, Ne.symm heq]

theorem returns_liveCounts_eq {m : Machine} (hsize : m.size < 2 ^ 32)
    (h : Counted m.toGrid counts count) :
    Returns (liveCounts m counts) fun l => m.liveChips.map (fun c => (c, count c)) = l := by
  have hmap : Returns (liveCounts m counts)
      (List.Forall₂ (fun c e => (c, count c) = e) m.liveChips) := by
    refine Ends.mapM fun c hc => ?_
    have hc := (Machine.mem_liveChips.1 hc).1
    refine Ends.bind (returns_fetch (h.size ▸ Grid.cell_lt hsize hc)) fun n hn => .pure ?_
    rw [h.eq c hc] at hn
    cases hn
    rfl
  exact hmap.mono fun _ hl => List.forall₂_eq_eq_eq ▸ List.forall₂_map_left_iff.2 hl

theorem returns_liveCounts {m : Machine} (hsize : m.size < 2 ^ 32)
    (h : Counted m.toGrid counts count) :
    Returns (liveCounts m counts) fun l => ∀ c, m.Live c → (c, count c) ∈ l :=
  (returns_liveCounts_eq hsize h).mono fun _ hl c hc =>
    hl ▸ List.mem_map.2 ⟨c, Machine.mem_liveChips.2 hc, rfl⟩

/-- A net has the number of the nets before it on its chip, if the numbers fit their field. -/
theorem returns_numberNets [Build] (hsize : g.size < 2 ^ 32) {layout : KeyLayout}
    {sources : List Chip} (hsources : ∀ c ∈ sources, g.Has c) (h : Counted g counts count)
    (hindex : ∀ c ∈ sources, count c + sources.count c ≤ 2 ^ layout.indexBits) :
    Returns (numberNets g layout sources counts) fun keys => keys.length = sources.length ∧
      ∀ i c, sources[i]? = some c →
        keys[i]? =
          some (Pattern.mk (layout.key c (count c + (sources.take i).count c)) layout.mask) := by
  induction sources generalizing counts count with
  | nil => exact .ok ⟨rfl, nofun⟩
  | cons c rest ih =>
    have hc := hsources c List.mem_cons_self
    have hfits : count c < layout.indexCapacity := by
      have := hindex c List.mem_cons_self
      rw [List.count_cons_self] at this
      rw [KeyLayout.indexCapacity, Nat.one_shiftLeft]
      omega
    rw [numberNets]
    refine Ends.bind (returns_fetch (h.size ▸ Grid.cell_lt hsize hc)) fun index hn => ?_
    rw [h.eq c hc] at hn
    cases hn
    rw [assert_of hfits]
    refine Ends.bind (P := fun _ => True) trivial fun _ _ => ?_
    refine Ends.bind (h.adjust_eq hsize hc) fun next hnext => ?_
    have hrest : ∀ c' ∈ rest,
        (count c' + if c' = c then 1 else 0) + rest.count c' ≤ 2 ^ layout.indexBits := by
      intro c' hc'
      have := hindex c' (List.mem_cons_of_mem _ hc')
      rw [List.count_cons] at this
      by_cases heq : c' = c
      · simp only [heq, beq_self_eq_true, if_true] at this ⊢
        omega
      · simpa [heq, Ne.symm heq] using this
    refine Ends.bind (ih (fun c hc => hsources c (List.mem_cons_of_mem _ hc)) hnext hrest) ?_
    rintro keys ⟨hlength, hkeys⟩
    refine .pure ⟨by rw [List.length_cons, List.length_cons, hlength], fun i c' hi => ?_⟩
    cases i with
    | zero =>
      cases hi
      rfl
    | succ i =>
      rw [List.getElem?_cons_succ] at hi ⊢
      rw [hkeys i c' hi, List.take_succ_cons, List.count_cons]
      congr 3
      by_cases heq : c = c'
      · simp [heq]
        omega
      · simp [heq, Ne.symm heq]

/-! ### The assignment -/

/-- Every net has a key made of its source chip and of the number of the nets before it there. -/
structure Numbered (part : Partitioning) (p : Placement) (keys : KeyAssignment) : Prop where
  size : keys.keys.size = part.nets.size
  total : keys.layout.totalBits ≤ 32
  key : ∀ i n c, part.nets[i]? = some n → p.chips[n.source]? = some c → ∃ index,
    index = (part.nets.toList.take i).countP (fun n => p.chips[n.source]? = some c) ∧
      keys.layout.Holds c index ∧
      keys.keys[i]? = some (Pattern.mk (keys.layout.key c index) keys.layout.mask)

theorem count_eq_countP {α β : Type} [DecidableEq β] {f : α → Option β} {xs : List α} {ys : List β}
    (h : List.Forall₂ (fun x y => f x = some y) xs ys) (b : β) :
    ys.count b = xs.countP fun x => f x = some b := by
  induction h with
  | nil => rfl
  | cons hxy _ ih => simp [List.count_cons, List.countP_cons, ih, hxy]

theorem countP_take_lt {α : Type} {p : α → Bool} {xs : List α} {i : Nat} {a : α}
    (h : xs[i]? = some a) (ha : p a) : (xs.take i).countP p < xs.countP p := by
  obtain ⟨hi, heq⟩ := List.getElem?_eq_some_iff.1 h
  conv_rhs => rw [← List.take_append_drop i xs, List.drop_eq_getElem_cons hi, heq]
  rw [List.countP_append, List.countP_cons_of_pos ha]
  omega

theorem returns_chipOf {p : Placement} {m : Machine} {s : Nat}
    (h : ∃ c, p.chipOf s = .ok c ∧ m.Live c) :
    Returns (p.chipOf s) fun c => p.chips[s]? = some c ∧ m.Live c := by
  obtain ⟨c, hc, hlive⟩ := h
  exact returns_iff.2 ⟨c, hc, fetch_eq_ok.1 hc, hlive⟩

theorem returns_sourceChips {part : Partitioning} {p : Placement} {m : Machine}
    (hp : ∀ n ∈ part.nets, Returns (p.chipOf n.source) fun c =>
      p.chips[n.source]? = some c ∧ m.Live c) :
    Returns (part.sourceChips p) fun sources =>
      List.Forall₂ (fun n c => p.chips[n.source]? = some c) part.nets.toList sources ∧
        ∀ c ∈ sources, m.Live c := by
  have hsources : Returns (part.sourceChips p)
      (List.Forall₂ (fun n c => p.chips[n.source]? = some c ∧ m.Live c) part.nets.toList) :=
    Ends.mapM fun n hn => hp n (Array.mem_toList_iff.1 hn)
  refine hsources.mono fun sources h => ⟨h.imp fun _ _ h => h.1, fun c hc => ?_⟩
  obtain ⟨_, _, _, hlive⟩ := forall_right h hc
  exact hlive

/-- Keys are given to all nets, unless the input asks for more than keys can tell apart. -/
theorem ends_allocateKeys [Build] {part : Partitioning} {p : Placement} {m : Machine}
    (hsize : m.size < 2 ^ 32) (hp : ∀ n ∈ part.nets, Returns (p.chipOf n.source) fun c =>
      p.chips[n.source]? = some c ∧ m.Live c) (policy : KeyPolicy) :
    Ends (part.allocateKeys p m policy) Failure.Expected (Numbered part p) := by
  unfold allocateKeys
  refine Ends.bind (.liftError policy.ends_validate) fun _ hpolicy => ?_
  refine Ends.bind (returns_sourceChips hp).lift ?_
  rintro sources ⟨hsources, hlive⟩
  have hgrid : ∀ c ∈ sources, m.Has c := fun c hc => (hlive c hc).1
  refine Ends.bind (returns_sourceCounts hsize hgrid).lift fun counts hcounts => ?_
  refine Ends.bind (returns_liveCounts hsize hcounts).lift fun live hcount => ?_
  refine Ends.bind (.liftError (ends_chooseLayout hpolicy m.toGrid live)) fun layout hlayout => ?_
  have hcapacity : ∀ c ∈ sources, 0 + sources.count c ≤ 2 ^ layout.indexBits := fun c hc =>
    (Nat.zero_add _).symm ▸ hlayout.index _ (hcount c (hlive c hc))
  refine Ends.bind (returns_numberNets hsize hgrid (counted_replicate hsize) hcapacity).lift ?_
  rintro keys ⟨hlength, hkeys⟩
  refine .pure ⟨?_, hlayout.total, fun i n c hn hc => ?_⟩
  · rw [List.size_toArray, hlength, ← hsources.length_eq, Array.length_toList]
  · rw [← Array.getElem?_toList] at hn
    obtain ⟨c', hc', hplaced⟩ := exists_right hsources hn
    rw [hc] at hplaced
    cases hplaced
    have hlive' : m.Live c := hlive c (List.mem_of_getElem? hc')
    have hindex : (sources.take i).count c =
        (part.nets.toList.take i).countP fun n => p.chips[n.source]? = some c :=
      count_eq_countP (List.forall₂_take i hsources) c
    refine ⟨_, rfl, ⟨?_, ?_, ?_⟩, ?_⟩
    · exact Nat.lt_of_lt_of_le hlive'.1.1 hlayout.width
    · exact Nat.lt_of_lt_of_le hlive'.1.2 hlayout.height
    · rw [← hindex]
      have hlt : (sources.take i).count c < sources.count c :=
        countP_take_lt hc' (beq_self_eq_true c)
      exact Nat.lt_of_lt_of_le hlt (hlayout.index _ (hcount c hlive'))
    · rw [← hindex, List.getElem?_toArray, hkeys i c hc', Nat.zero_add]

/-- Every key is made of the chip of a net and its number. -/
theorem Numbered.made {part : Partitioning} {p : Placement} {keys : KeyAssignment}
    (h : Numbered part p keys) (hp : ∀ n ∈ part.nets, ∃ c, p.chips[n.source]? = some c) {i : Nat}
    {k : Pattern} (hk : keys.keys[i]? = some k) : ∃ n c index, part.nets[i]? = some n ∧
      p.chips[n.source]? = some c ∧
      index = (part.nets.toList.take i).countP (fun n => p.chips[n.source]? = some c) ∧
      keys.layout.Holds c index ∧ k = ⟨keys.layout.key c index, keys.layout.mask⟩ := by
  have hi : i < part.nets.size := h.size ▸ (Array.getElem?_eq_some_iff.1 hk).1
  obtain ⟨c, hc⟩ := hp _ (Array.getElem_mem hi)
  obtain ⟨index, hindex, hholds, hkey⟩ := h.key i _ c (Array.getElem?_eq_getElem hi) hc
  rw [hk] at hkey
  cases hkey
  exact ⟨_, c, index, Array.getElem?_eq_getElem hi, hc, hindex, hholds, rfl⟩

/-- No packet belongs to two nets. -/
theorem Numbered.apart {part : Partitioning} {p : Placement} {keys : KeyAssignment}
    (h : Numbered part p keys) (hp : ∀ n ∈ part.nets, ∃ c, p.chips[n.source]? = some c) {i j : Nat}
    (hij : i < j) {a b : Pattern} (ha : keys.keys[i]? = some a) (hb : keys.keys[j]? = some b)
    (w : BitVec 32) :
    ¬((Pattern.of a.key a.mask).accepts w ∧ (Pattern.of b.key b.mask).accepts w) := by
  rintro ⟨hwa, hwb⟩
  obtain ⟨n, c, index, hn, hc, hindex, hholds, rfl⟩ := h.made hp ha
  obtain ⟨n', c', index', _, _, hindex', hholds', rfl⟩ := h.made hp hb
  rw [Pattern.accepts_iff, Pattern.of, KeyLayout.key_and_mask h.total] at hwa hwb
  obtain ⟨rfl, heq⟩ := KeyLayout.key_inj h.total hholds hholds' (hwa.symm.trans hwb)
  have hlt : (part.nets.toList.take i).countP (fun n => p.chips[n.source]? = some c) <
      (part.nets.toList.take j).countP (fun n => p.chips[n.source]? = some c) := by
    have hi : (part.nets.toList.take j)[i]? = some n := by
      rw [List.getElem?_take_of_lt hij, Array.getElem?_toList, hn]
    have := countP_take_lt (p := fun n => p.chips[n.source]? = some c) hi (by simpa using hc)
    rwa [List.take_take, Nat.min_eq_left (Nat.le_of_lt hij)] at this
  omega

theorem Numbered.clean {part : Partitioning} {p : Placement} {keys : KeyAssignment}
    (h : Numbered part p keys) (hp : ∀ n ∈ part.nets, ∃ c, p.chips[n.source]? = some c) {i : Nat}
    {k : Pattern} (hk : keys.keys[i]? = some k) : k.Clean := by
  obtain ⟨_, c, index, _, _, _, _, rfl⟩ := h.made hp hk
  exact KeyLayout.key_and_mask h.total c index

theorem Numbered.mask_eq {part : Partitioning} {p : Placement} {keys : KeyAssignment}
    (h : Numbered part p keys) (hp : ∀ n ∈ part.nets, ∃ c, p.chips[n.source]? = some c) {i : Nat}
    {k : Pattern} (hk : keys.keys[i]? = some k) : k.mask = keys.layout.mask := by
  obtain ⟨_, _, _, _, _, _, _, rfl⟩ := h.made hp hk
  rfl

/-- Where a net has a key, the chips can be counted in a word: the fields of keys tell the columns and
the rows apart, and the source of the net has a cell. -/
theorem size_lt_of_allocateKeys [Build] {part : Partitioning} {p : Placement} {m : Machine}
    {policy : KeyPolicy} {keys : KeyAssignment} (h : part.allocateKeys p m policy = .ok keys)
    (hnets : part.nets.size ≠ 0) : m.size < 2 ^ 32 := by
  unfold allocateKeys at h
  simp only [bind_eq_ok, liftM_eq_ok, liftM_checked_eq_ok] at h
  obtain ⟨_, hpolicy, sources, hsources, counts, _, live, _, layout, hlayout, _, hnumber, _⟩ := h
  have hsuffices := (ends_chooseLayout (policy.ends_validate.of_eq_ok hpolicy) m.toGrid live).of_eq_ok
    hlayout
  have hle : m.size ≤ 2 ^ 32 := calc
    m.size ≤ 2 ^ layout.xBits * 2 ^ layout.yBits := Nat.mul_le_mul hsuffices.width hsuffices.height
    _ = 2 ^ (layout.xBits + layout.yBits) := (Nat.pow_add 2 _ _).symm
    _ ≤ 2 ^ 32 := Nat.pow_le_pow_right (by decide) (by
      have := hsuffices.total
      unfold KeyLayout.totalBits at this
      omega)
  -- with one chip more than a word can count no cell would be kept
  refine Nat.lt_of_le_of_ne hle fun heq => ?_
  have hlength := (mapM_eq_ok.1 hsources).length_eq
  cases sources with
  | nil => exact hnets (by simpa using hlength)
  | cons c rest =>
    obtain ⟨_, hcell, _⟩ := bind_eq_ok.1 hnumber
    have hcells : m.cells = 0 := by rw [Grid.cells, heq]; rfl
    rw [fetch_eq_ok, hcells] at hcell
    cases hcell

/-- The key of a net says which chip the net comes from and how many nets before it come from there,
all keys have the mask of the layout, and no packet has the keys of two nets. -/
theorem allocateKeys_identifies [Build] {part : Partitioning} {p : Placement} {m : Machine}
    {policy : KeyPolicy} {keys : KeyAssignment} (hsize : m.size < 2 ^ 32)
    (hp : ∀ n ∈ part.nets, ∃ c, p.chipOf n.source = .ok c ∧ m.Live c)
    (h : part.allocateKeys p m policy = .ok keys) :
    (∀ i n, part.nets[i]? = some n → ∃ c k, p.chipOf n.source = .ok c ∧ keys.keyOf i = .ok k ∧
      keys.layout.decode k.key = (c, p.netsFrom (part.nets.toList.take i) c) ∧
      k.mask = keys.layout.mask ∧ k.key &&& k.mask = k.key) ∧
    ∀ i j a b, i ≠ j → keys.keyOf i = .ok a → keys.keyOf j = .ok b →
      ∀ w, ¬(a.accepts w ∧ b.accepts w) := by
  have hsource : ∀ n ∈ part.nets, ∃ c, p.chips[n.source]? = some c :=
    fun n hn => (hp n hn).imp fun c hc => fetch_eq_ok.1 hc.1
  have hnumbered : Numbered part p keys :=
    (ends_allocateKeys hsize (fun n hn => returns_chipOf (hp n hn)) policy).of_eq_ok h
  constructor
  · intro i n hn
    obtain ⟨c, hc⟩ := hsource n (Array.mem_of_getElem? hn)
    obtain ⟨_, rfl, hholds, hkey⟩ := hnumbered.key i n c hn hc
    exact ⟨c, _, fetch_eq_ok.2 hc, fetch_eq_ok.2 hkey, KeyLayout.decode_key hnumbered.total hholds,
      rfl, KeyLayout.key_and_mask hnumbered.total _ _⟩
  · intro i j a b hij ha hb w hw
    have ha : keys.keys[i]? = some a := fetch_eq_ok.1 ha
    have hb : keys.keys[j]? = some b := fetch_eq_ok.1 hb
    have heq : ∀ {k : Pattern}, k.Clean → Pattern.of k.key k.mask = k :=
      fun {k} hk => congrArg (Pattern.mk · k.mask) hk
    rw [← heq (hnumbered.clean hsource ha), ← heq (hnumbered.clean hsource hb)] at hw
    rcases Nat.lt_or_gt_of_ne hij with hlt | hlt
    · exact hnumbered.apart hsource hlt ha hb w hw
    · exact hnumbered.apart hsource hlt hb ha w hw.symm

/-- A mesh of three columns and two rows. -/
def oblong : Machine where
  toBlueprint := Blueprint.uniform ⟨3, 2, .mesh⟩
  valid := Blueprint.fault?_eq_none_iff.1 (by decide +kernel)

/-- Three nets between two slices, two of them from the first slice. -/
def crossing : Partitioning where
  slices := #[⟨0, 0, 1, .none⟩, ⟨1, 0, 1, .none⟩]
  ranges := #[(0, 1), (1, 2)]
  nets := #[⟨0, [1], .one, 0⟩, ⟨1, [0], .one, 1⟩, ⟨0, [0], .one, 2⟩]

def crossingPlacement : Placement := ⟨#[⟨2, 0⟩, ⟨0, 1⟩]⟩

def crossingKeys : KeyAssignment := ⟨⟨2, 1, 1⟩, #[⟨8, 15⟩, ⟨2, 15⟩, ⟨9, 15⟩]⟩

theorem sources_crossing :
    ∀ n ∈ crossing.nets, ∃ c, crossingPlacement.chipOf n.source = .ok c ∧ oblong.Live c := by
  intro n hn
  simp only [crossing, List.mem_toArray, List.mem_cons, List.not_mem_nil, or_false] at hn
  rcases hn with rfl | rfl | rfl
  · exact ⟨⟨2, 0⟩, rfl, by decide⟩
  · exact ⟨⟨0, 1⟩, rfl, by decide⟩
  · exact ⟨⟨2, 0⟩, rfl, by decide⟩

theorem allocateKeys_crossing :
    crossing.allocateKeys crossingPlacement oblong .narrowest = .ok crossingKeys := by
  decide +kernel

theorem allocateKeys_identifies_crossing :
    oblong.size < 2 ^ 32 ∧
    (∀ n ∈ crossing.nets, ∃ c, crossingPlacement.chipOf n.source = .ok c ∧ oblong.Live c) ∧
    crossing.allocateKeys crossingPlacement oblong .narrowest = .ok crossingKeys ∧
    crossingKeys.layout.decode 9 = (⟨2, 0⟩, 1) := by
  have hsize : oblong.size < 2 ^ 32 := by decide
  refine ⟨hsize, sources_crossing, allocateKeys_crossing, ?_⟩
  obtain ⟨c, k, hc, hk, hdecode, _⟩ :=
    (allocateKeys_identifies hsize sources_crossing allocateKeys_crossing).1 2 _ rfl
  cases hc
  cases hk
  exact hdecode

end Partitioning

end HexFabric
