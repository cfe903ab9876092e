import HexFabric.Proofs.Key.Allocation
import Mathlib.Tactic.Choose

/-! How wide the fields of keys have to be. Fields do exactly if they fit a word and have words for
all columns, all rows and all nets of each chip. The narrowest fields do if any do, and the keys are
those of the same widths when these are fixed. If the nets of a chip cannot be numbered, a chip is
named of which that is true: `Partitioning.allocateKeys_narrowest`. -/

namespace HexFabric

namespace Partitioning

variable {counts : List (Chip × Nat)}

theorem busiest_mem (h : (busiest counts).2 ≠ 0) : busiest counts ∈ counts := by
  suffices ∀ (counts : List (Chip × Nat)) (best : Chip × Nat),
      counts.foldl (fun best e => if best.2 < e.2 then e else best) best ∈ best :: counts by
    rcases List.mem_cons.1 (this counts (⟨0, 0⟩, 0)) with hfirst | hmem
    · exact absurd (congrArg Prod.snd hfirst) h
    · exact hmem
  intro counts
  induction counts with
  | nil => exact fun best => List.mem_cons_self
  | cons e rest ih =>
    intro best
    rw [List.foldl_cons]
    rcases List.mem_cons.1 (ih (if best.2 < e.2 then e else best)) with hfirst | hrest
    · rw [hfirst]
      split <;> simp
    · exact List.mem_cons_of_mem _ (List.mem_cons_of_mem _ hrest)

theorem busiest_le_iff {n : Nat} : (busiest counts).2 ≤ n ↔ ∀ e ∈ counts, e.2 ≤ n := by
  constructor
  · exact fun h e he => Nat.le_trans (le_busiest he) h
  · intro h
    by_cases hzero : (busiest counts).2 = 0
    · rw [hzero]
      exact Nat.zero_le n
    · exact h _ (busiest_mem hzero)

end Partitioning

namespace KeyLayout

variable {g : Grid} {counts : List (Chip × Nat)} {l : KeyLayout}

/-- The narrowest fields. -/
def narrowest (g : Grid) (counts : List (Chip × Nat)) : KeyLayout :=
  ⟨bitsFor g.width, bitsFor g.height, bitsFor (Partitioning.busiest counts).2⟩

theorem suffices_iff : l.Suffices g counts ↔ l.totalBits ≤ 32 ∧ g.width ≤ 2 ^ l.xBits ∧
    g.height ≤ 2 ^ l.yBits ∧ ∀ e ∈ counts, e.2 ≤ 2 ^ l.indexBits := by
  constructor
  · intro h
    exact ⟨h.total, h.width, h.height, h.index⟩
  · rintro ⟨htotal, hx, hy, hindex⟩
    exact ⟨htotal, hx, hy, hindex⟩

/-- Fields suffice exactly if they fit a word and none of them is narrower than it may be. -/
theorem suffices_iff_narrowest_le : l.Suffices g counts ↔
    l.totalBits ≤ 32 ∧ (narrowest g counts).xBits ≤ l.xBits ∧
      (narrowest g counts).yBits ≤ l.yBits ∧ (narrowest g counts).indexBits ≤ l.indexBits := by
  unfold narrowest
  rw [bitsFor_le_iff, bitsFor_le_iff, bitsFor_le_iff, Partitioning.busiest_le_iff, suffices_iff]

theorem suffices_narrowest_iff :
    (narrowest g counts).Suffices g counts ↔ (narrowest g counts).totalBits ≤ 32 := by
  rw [suffices_iff_narrowest_le]
  exact and_iff_left ⟨Nat.le_refl _, Nat.le_refl _, Nat.le_refl _⟩

/-- The narrowest fields suffice if any do. -/
theorem Suffices.narrowest (h : l.Suffices g counts) :
    (narrowest g counts).Suffices g counts := by
  obtain ⟨htotal, hx, hy, hindex⟩ := suffices_iff_narrowest_le.1 h
  rw [suffices_narrowest_iff]
  unfold totalBits at htotal ⊢
  omega

end KeyLayout

/-! ### Policies -/

namespace KeyPolicy

variable {g : Grid} {counts : List (Chip × Nat)} {l l' : KeyLayout}

/-- The widths to which a policy leads, for chips with these numbers of nets. -/
def widths (g : Grid) (counts : List (Chip × Nat)) (policy : KeyPolicy) :
    Except Error KeyLayout := do
  policy.validate
  Partitioning.chooseLayout g counts policy

/-- How many bits a policy gives to the place of a chip. -/
def coordinateBits (g : Grid) : KeyPolicy → Nat
  | narrowest => bitsFor g.width + bitsFor g.height
  | fixed l => l.xBits + l.yBits

theorem widths_narrowest_eq_ok_iff : narrowest.widths g counts = .ok l ↔
    .narrowest g counts = l ∧ l.Suffices g counts := by
  change Partitioning.chooseLayout g counts narrowest = .ok l ↔ _
  unfold Partitioning.chooseLayout
  dsimp only
  change (if 32 < (KeyLayout.narrowest g counts).totalBits then _ else _) = _ ↔ _
  split_ifs with htotal
  · refine iff_of_false nofun ?_
    rintro ⟨rfl, hsuffices⟩
    exact absurd hsuffices.total (Nat.not_le.2 htotal)
  · rw [Except.ok.injEq]
    refine ⟨?_, And.left⟩
    rintro rfl
    exact ⟨rfl, KeyLayout.suffices_narrowest_iff.2 (Nat.not_lt.1 htotal)⟩

theorem validate_fixed_eq_ok_iff {u : Unit} :
    (fixed l).validate = .ok u ↔ l.totalBits ≤ 32 := by
  unfold validate
  dsimp only
  split_ifs with h
  · exact iff_of_false nofun (Nat.not_le.2 h)
  · exact iff_of_true rfl (Nat.not_lt.1 h)

theorem widths_fixed_eq_ok_iff : (fixed l).widths g counts = .ok l' ↔
    l = l' ∧ l.Suffices g counts := by
  unfold widths
  simp only [bind_eq_ok, validate_fixed_eq_ok_iff, Partitioning.chooseLayout_fixed]
  split_ifs with hwide
  · cases hfind : counts.find? fun e => 2 ^ l.indexBits < e.2 with
    | some e =>
      refine iff_of_false nofun fun ⟨_, hsuffices⟩ => ?_
      have hlt : 2 ^ l.indexBits < e.2 := by simpa using List.find?_some hfind
      exact Nat.not_le.2 hlt (hsuffices.index e (List.mem_of_find?_eq_some hfind))
    | none =>
      have hindex : ∀ e ∈ counts, e.2 ≤ 2 ^ l.indexBits := by
        simpa using List.find?_eq_none.1 hfind
      rw [Except.ok.injEq]
      exact ⟨fun ⟨_, htotal, hl⟩ => ⟨hl, htotal, hwide.1, hwide.2, hindex⟩,
        fun ⟨hl, hsuffices⟩ => ⟨(), hsuffices.total, hl⟩⟩
  · exact iff_of_false nofun fun ⟨_, hsuffices⟩ => hwide ⟨hsuffices.width, hsuffices.height⟩

/-- What is true of a chip that is named because its nets cannot be numbered. -/
structure Overruns (policy : KeyPolicy) (counts : List (Chip × Nat)) (chip : Chip)
    (count bits capacity : Nat) : Prop where
  counted : (chip, count) ∈ counts
  capacity_eq : capacity = 2 ^ bits
  lt : capacity < count
  first : ∀ l, policy = fixed l → bits = l.indexBits ∧
    counts.find? (fun e => 2 ^ l.indexBits < e.2) = some (chip, count)

theorem ends_widths_narrowest (h : narrowest.coordinateBits g ≤ 32) :
    Ends (narrowest.widths g counts) (fun e => ∀ chip count bits capacity,
      e = .keyspaceExhausted chip count bits capacity →
        narrowest.Overruns counts chip count bits capacity) fun _ => True := by
  change Ends (Partitioning.chooseLayout g counts narrowest) _ _
  unfold Partitioning.chooseLayout
  dsimp only
  split_ifs with htotal
  · refine .throw ?_
    rintro chip count bits capacity ⟨rfl, rfl, rfl, rfl⟩
    -- the subtraction is exact because coordinates fit
    have hbits : ¬bitsFor (Partitioning.busiest counts).2 ≤
        32 - (bitsFor g.width + bitsFor g.height) := by
      unfold coordinateBits at h
      unfold KeyLayout.totalBits at htotal
      dsimp only at h htotal
      omega
    rw [bitsFor_le_iff, Nat.not_le] at hbits
    refine ⟨Partitioning.busiest_mem (Nat.ne_zero_of_lt hbits), Nat.one_shiftLeft _, ?_, nofun⟩
    rwa [Nat.one_shiftLeft]
  · exact .ok trivial

theorem ends_widths_fixed : Ends ((fixed l).widths g counts) (fun e => ∀ chip count bits capacity,
    e = .keyspaceExhausted chip count bits capacity →
      (fixed l).Overruns counts chip count bits capacity) fun _ => True := by
  refine Ends.bind (P := fun _ => True) ?_ fun _ _ => ?_
  · unfold validate
    dsimp only
    split_ifs
    · exact .throw nofun
    · exact .ok trivial
  rw [Partitioning.chooseLayout_fixed]
  split_ifs
  · cases hfind : counts.find? fun e => 2 ^ l.indexBits < e.2 with
    | none => exact .ok trivial
    | some e =>
      refine .throw ?_
      rintro chip count bits capacity ⟨rfl, rfl, rfl, rfl⟩
      refine ⟨List.mem_of_find?_eq_some hfind, rfl, by simpa using List.find?_some hfind, ?_⟩
      rintro _ ⟨⟩
      exact ⟨rfl, hfind⟩
  · exact .throw nofun

/-- If coordinates fit a word, a chip is named only if its nets cannot be numbered. -/
theorem ends_widths {policy : KeyPolicy} (h : policy.coordinateBits g ≤ 32) :
    Ends (policy.widths g counts) (fun e => ∀ chip count bits capacity,
      e = .keyspaceExhausted chip count bits capacity →
        policy.Overruns counts chip count bits capacity) fun _ => True := by
  cases policy with
  | narrowest => exact ends_widths_narrowest h
  | fixed l => exact ends_widths_fixed

end KeyPolicy

/-! ### The assignment -/

namespace Partitioning

variable {part : Partitioning} {p : Placement} {m : Machine}

/-- How many nets come from each live chip. -/
def liveSources (part : Partitioning) (p : Placement) (m : Machine) : List (Chip × Nat) :=
  m.liveChips.map fun c => (c, p.netsFrom part.nets.toList c)

/-- The keys depend on the policy only by the widths. -/
theorem exists_allocateKeys_eq [Build] (hsize : m.size < 2 ^ 32)
    (hp : ∀ n ∈ part.nets, ∃ c, p.chipOf n.source = .ok c ∧ m.Live c) :
    ∃ make : KeyLayout → KeyAssignment, (∀ l, (make l).layout = l) ∧
      ∀ policy, part.allocateKeys p m policy = (do
        return make (← policy.widths m.toGrid (part.liveSources p m))) := by
  obtain ⟨sources, hsourcesEq, hplaced, hlive⟩ :=
    returns_iff.1 (returns_sourceChips fun n hn => returns_chipOf (hp n hn))
  have hgrid : ∀ c ∈ sources, m.Has c := fun c hc => (hlive c hc).1
  obtain ⟨counts, hcountsEq, hcounts⟩ := returns_iff.1 (returns_sourceCounts hsize hgrid)
  obtain ⟨live, hliveEq, rfl⟩ := returns_iff.1 (returns_liveCounts_eq hsize hcounts)
  have hcount : (m.liveChips.map fun c => (c, sources.count c)) = part.liveSources p m := by
    refine List.map_congr_left fun c _ => ?_
    rw [count_eq_countP hplaced c]
    rfl
  rw [hcount] at hliveEq
  have hkeys : ∀ l, ∃ keys, KeyLayout.Suffices l m.toGrid (part.liveSources p m) →
      numberNets m.toGrid l sources (.replicate m.cells 0) = .ok keys := by
    intro l
    by_cases hl : l.Suffices m.toGrid (part.liveSources p m)
    · have hindex : ∀ c ∈ sources, 0 + sources.count c ≤ 2 ^ l.indexBits := by
        intro c hc
        rw [Nat.zero_add]
        refine hl.index (c, sources.count c) (hcount ▸ List.mem_map.2 ⟨c, ?_, rfl⟩)
        exact Machine.mem_liveChips.2 (hlive c hc)
      obtain ⟨keys, hkeys, _⟩ :=
        returns_iff.1 (returns_numberNets hsize hgrid (counted_replicate hsize) hindex)
      exact ⟨keys, fun _ => hkeys⟩
    · exact ⟨[], fun h => absurd h hl⟩
  choose keys hkeys using hkeys
  refine ⟨fun l => ⟨l, (keys l).toArray⟩, fun _ => rfl, fun policy => ?_⟩
  unfold allocateKeys KeyPolicy.widths
  -- chips and counts are found in either case, so only the two steps of the policy can fail
  cases hpolicy : policy.validate with
  | error e => rfl
  | ok _ =>
    rw [hsourcesEq]
    simp only [liftM_ok_bind, hcountsEq, hliveEq]
    cases hchoose : chooseLayout m.toGrid (part.liveSources p m) policy with
    | error e => rfl
    | ok l =>
      have hl := (ends_chooseLayout (policy.ends_validate.of_eq_ok hpolicy) _ _).of_eq_ok hchoose
      simp only [liftError_ok_bind, liftM_ok_bind, hkeys l hl]
      rfl

/-- Keys are made exactly if the policy leads to some widths, and an error is one of the policy. -/
theorem exists_make [Build] (hsize : m.size < 2 ^ 32)
    (hp : ∀ n ∈ part.nets, ∃ c, p.chipOf n.source = .ok c ∧ m.Live c) :
    ∃ make : KeyLayout → KeyAssignment, (∀ l, (make l).layout = l) ∧ ∀ policy,
      (∀ keys, part.allocateKeys p m policy = .ok keys ↔
        ∃ l, policy.widths m.toGrid (part.liveSources p m) = .ok l ∧ make l = keys) ∧
      ∀ e, part.allocateKeys p m policy = .error (.error e) →
        policy.widths m.toGrid (part.liveSources p m) = .error e := by
  obtain ⟨make, hlayout, hkeys⟩ := exists_allocateKeys_eq hsize hp
  refine ⟨make, hlayout, fun policy => ?_⟩
  rw [hkeys]
  cases policy.widths m.toGrid (part.liveSources p m) with
  | error e =>
    refine ⟨fun _ => iff_of_false nofun nofun, ?_⟩
    rintro _ ⟨⟩
    rfl
  | ok l =>
    refine ⟨fun keys => ?_, nofun⟩
    change Except.ok (make l) = Except.ok keys ↔ _
    simp only [Except.ok.injEq, exists_eq_left']

theorem suffices_liveSources_iff {l : KeyLayout} :
    l.Suffices m.toGrid (part.liveSources p m) ↔
      l.xBits + l.yBits + l.indexBits ≤ 32 ∧ m.width ≤ 2 ^ l.xBits ∧ m.height ≤ 2 ^ l.yBits ∧
        ∀ c, m.Live c → p.netsFrom part.nets.toList c ≤ 2 ^ l.indexBits := by
  rw [KeyLayout.suffices_iff]
  simp only [liveSources, List.forall_mem_map, Machine.mem_liveChips]
  rfl

/-- A chip that is named is live and has too many nets. If the widths are fixed, none of the live
chips below it has. -/
theorem of_overruns {policy : KeyPolicy} {chip : Chip} {count bits capacity : Nat}
    (h : policy.Overruns (part.liveSources p m) chip count bits capacity) :
    m.Live chip ∧ count = p.netsFrom part.nets.toList chip ∧ capacity = 2 ^ bits ∧
      capacity < count ∧ ∀ l, policy = .fixed l → bits = l.indexBits ∧
        ∀ c, m.Live c → c < chip → p.netsFrom part.nets.toList c ≤ capacity := by
  obtain ⟨c, hc, heq⟩ := List.mem_map.1 h.counted
  cases heq
  refine ⟨Machine.mem_liveChips.1 hc, rfl, h.capacity_eq, h.lt, fun l hl => ?_⟩
  obtain ⟨hbits, hfind⟩ := h.first l hl
  refine ⟨hbits, fun c' hc' hlt => ?_⟩
  have hsorted : (part.liveSources p m).Pairwise (Prod.fst · < Prod.fst ·) :=
    List.pairwise_map.2 m.pairwise_liveChips
  have hle := Ascending.not_of_lt_find? hsorted hfind
    (List.mem_map.2 ⟨c', Machine.mem_liveChips.2 hc', rfl⟩) hlt
  rwa [decide_eq_true_eq, Nat.not_lt, ← hbits, ← h.capacity_eq] at hle

/-- Fixed widths do exactly if they are wide enough, and the narrowest ones do if any do. They are
as narrow as any that do, and give the same keys when they are fixed. If nets of a chip cannot be
numbered though the fields for coordinates fit a word, a chip is named of which that is true, and it
is the first one if the widths are fixed. -/
theorem allocateKeys_narrowest [Build] (hsize : m.size < 2 ^ 32)
    (hp : ∀ n ∈ part.nets, ∃ c, p.chipOf n.source = .ok c ∧ m.Live c) :
    (∀ l, (∃ keys, part.allocateKeys p m (.fixed l) = .ok keys) ↔
      l.xBits + l.yBits + l.indexBits ≤ 32 ∧ m.width ≤ 2 ^ l.xBits ∧ m.height ≤ 2 ^ l.yBits ∧
        ∀ c, m.Live c → p.netsFrom part.nets.toList c ≤ 2 ^ l.indexBits) ∧
    ((∃ keys, part.allocateKeys p m .narrowest = .ok keys) ↔
      ∃ l keys, part.allocateKeys p m (.fixed l) = .ok keys) ∧
    (∀ keys, part.allocateKeys p m .narrowest = .ok keys →
      part.allocateKeys p m (.fixed keys.layout) = .ok keys ∧
      ∀ l keys', part.allocateKeys p m (.fixed l) = .ok keys' →
        keys.layout.xBits ≤ l.xBits ∧ keys.layout.yBits ≤ l.yBits ∧
          keys.layout.indexBits ≤ l.indexBits) ∧
    ∀ policy chip count bits capacity, policy.coordinateBits m.toGrid ≤ 32 →
      part.allocateKeys p m policy =
        .error (.error (.keyspaceExhausted chip count bits capacity)) →
      m.Live chip ∧ count = p.netsFrom part.nets.toList chip ∧ capacity = 2 ^ bits ∧
        capacity < count ∧ ∀ l, policy = .fixed l → bits = l.indexBits ∧
          ∀ c, m.Live c → c < chip → p.netsFrom part.nets.toList c ≤ capacity := by
  obtain ⟨make, hlayout, hmake⟩ := exists_make hsize hp
  have hfixed : ∀ l keys, part.allocateKeys p m (.fixed l) = .ok keys ↔
      l.Suffices m.toGrid (part.liveSources p m) ∧ make l = keys := by
    intro l keys
    simp only [hmake, KeyPolicy.widths_fixed_eq_ok_iff, and_assoc, exists_eq_left']
  have hnarrowest : ∀ keys, part.allocateKeys p m .narrowest = .ok keys ↔
      (KeyLayout.narrowest m.toGrid (part.liveSources p m)).Suffices m.toGrid
        (part.liveSources p m) ∧
      make (.narrowest m.toGrid (part.liveSources p m)) = keys := by
    intro keys
    simp only [hmake, KeyPolicy.widths_narrowest_eq_ok_iff, and_assoc, exists_eq_left']
  refine ⟨fun l => ?_, ?_, fun keys h => ?_, fun policy chip count bits capacity hbits h => ?_⟩
  · rw [← suffices_liveSources_iff]
    simp only [hfixed, exists_and_left, exists_eq', and_true]
  · simp only [hfixed, hnarrowest, exists_and_left, exists_eq', and_true]
    exact ⟨fun h => ⟨_, h⟩, fun ⟨_, h⟩ => h.narrowest⟩
  · obtain ⟨hsuffices, rfl⟩ := (hnarrowest keys).1 h
    rw [hlayout]
    refine ⟨(hfixed _ _).2 ⟨hsuffices, rfl⟩, fun l keys' h' => ?_⟩
    exact (KeyLayout.suffices_iff_narrowest_le.1 ((hfixed l keys').1 h').1).2
  · have herror := (hmake policy).2 _ h
    exact of_overruns ((KeyPolicy.ends_widths hbits).of_eq_error herror chip count bits capacity rfl)

theorem allocateKeys_narrowest_crossing :
    oblong.size < 2 ^ 32 ∧
    (∀ n ∈ crossing.nets, ∃ c, crossingPlacement.chipOf n.source = .ok c ∧ oblong.Live c) ∧
    crossing.allocateKeys crossingPlacement oblong (.fixed ⟨2, 1, 0⟩) =
      .error (.error (.keyspaceExhausted ⟨2, 0⟩ 2 0 1)) ∧
    crossingPlacement.netsFrom crossing.nets.toList ⟨2, 0⟩ = 2 ∧
    crossing.allocateKeys crossingPlacement oblong (.fixed ⟨2, 1, 1⟩) = .ok crossingKeys := by
  have hexhausted : crossing.allocateKeys crossingPlacement oblong (.fixed ⟨2, 1, 0⟩) =
      .error (.error (.keyspaceExhausted ⟨2, 0⟩ 2 0 1)) := by decide +kernel
  have hsize : oblong.size < 2 ^ 32 := by decide
  obtain ⟨_, _, hfixed, herror⟩ := allocateKeys_narrowest hsize sources_crossing
  obtain ⟨_, hcount, _⟩ := herror _ _ _ _ _ (by decide) hexhausted
  exact ⟨hsize, sources_crossing, hexhausted, hcount.symm, (hfixed _ allocateKeys_crossing).1⟩

end Partitioning

end HexFabric
