import HexFabric.Proofs.Table.Elision

/-! When no tables can be built. If nets have keys, there are two reasons: nodes on one chip ask for
different routes with the same pattern, or the router of a chip does not hold its table. Failures
name such nodes, or the first such chip. A build that checks assertions also stops at the first chip
where merging has changed a route: `RoutingTables.build_refuses`. -/

namespace HexFabric.RoutingTables

variable {trees : List RoutingTree} {keys : KeyAssignment} {m : Machine} {config : TableConfig}
  {c : Chip} {p : Pattern}

/-- Nodes on chip `c` of trees with pattern `p` ask for different routes. -/
def Torn (trees : List RoutingTree) (keys : KeyAssignment) (c : Chip) (p : Pattern) : Prop :=
  ∃ s ∈ trees, ∃ t ∈ trees, ∃ j k, keys.keyOf s.net = .ok j ∧ keys.keyOf t.net = .ok k ∧
    Pattern.of j.key j.mask = p ∧ Pattern.of k.key k.mask = p ∧
    ∃ a ∈ s.nodes, ∃ b ∈ t.nodes, a.chip = c ∧ b.chip = c ∧ a.route ≠ b.route

/-- The table of a chip, made of the first entry that trees call for there with each pattern. -/
def chipTable (config : TableConfig) (trees : List RoutingTree) (keys : KeyAssignment) (c : Chip) :
    List Entry :=
  tableOf config (Call.entriesOn (Call.ofTrees keys trees) c)

/-- The router of a chip does not hold its table. -/
def Overfull (m : Machine) (config : TableConfig) (trees : List RoutingTree) (keys : KeyAssignment)
    (c : Chip) : Prop :=
  m.routerLimit c < (chipTable config trees keys c).length

/-- An assertion catches that merging has changed a route of a chip. -/
def Caught [Build] (config : TableConfig) (trees : List RoutingTree) (keys : KeyAssignment)
    (c : Chip) : Prop :=
  Build.asserts ∧ ¬MergesAlike config (Call.entriesOn (Call.ofTrees keys trees) c)

theorem clash_iff_torn : Call.Clash (Call.ofTrees keys trees) c p ↔ Torn trees keys c p := by
  constructor
  · rintro ⟨_, ha, _, hb, hac, hbc, hap, hbp, hroute⟩
    obtain ⟨s, hs, j, hj, n, hn, rfl⟩ := Call.mem_ofTrees.1 ha
    obtain ⟨t, ht, k, hk, n', hn', rfl⟩ := Call.mem_ofTrees.1 hb
    exact ⟨s, hs, t, ht, j, k, hj, hk, hap, hbp, n, hn, n', hn', hac, hbc, hroute⟩
  · rintro ⟨s, hs, t, ht, j, k, hj, hk, hap, hbp, n, hn, n', hn', hac, hbc, hroute⟩
    exact ⟨_, mem_calls hs hj hn, _, mem_calls ht hk hn', hac, hbc, hap, hbp, hroute⟩

/-- A chip with the entries that trees call for there. -/
def called (trees : List RoutingTree) (keys : KeyAssignment) (c : Chip) : Chip × List TreeEntry :=
  (c, Call.entriesOn (Call.ofTrees keys trees) c)

theorem passes_called_iff [Build] : Passes m config (called trees keys c) ↔
    ¬Overfull m config trees keys c ∧ ¬Caught config trees keys c := by
  constructor
  · exact fun h => ⟨Nat.not_lt.2 h.length_le, fun hcaught => hcaught.2 (h.mergesAlike hcaught.1)⟩
  · rintro ⟨hfits, hnot⟩
    exact ⟨fun hchecked => not_not.1 fun hchanged => hnot ⟨hchecked, hchanged⟩, Nat.not_lt.1 hfits⟩

section Recorded

variable {collected : EntriesByChip}
  (h : EntriesByChip.Recorded (Call.ofTrees keys trees) collected)

include h

theorem called_eq_of_mem {e : Chip × List TreeEntry} (he : e ∈ collected.entries) :
    called trees keys e.1 = e := by
  rw [called, ← h.entriesAt_eq, EntriesByChip.entriesAt_of_mem he]

/-- Only a table with entries can fail to pass. -/
theorem passes_called [Build] (hall : ∀ e ∈ collected.entries, e.1 = c → Passes m config e) :
    Passes m config (called trees keys c) := by
  cases hget : collected.get? c with
  | some entries =>
    have he := SortedMap.get?_eq_some_iff.1 hget
    rw [show called trees keys c = (c, entries) from called_eq_of_mem h he]
    exact hall _ he rfl
  | none =>
    have hnil : called trees keys c = (c, []) := by
      rw [called, ← h.entriesAt_eq, EntriesByChip.entriesAt, hget, Option.getD_none]
    have hapart : Apart [] := ⟨List.nodup_nil, by simp, by simp⟩
    have hempty : tableOf config [] = [] := tableOf_eq_nil (ite_self [])
    rw [hnil]
    exact ⟨fun _ => hapart.mergesAlike config, by simp [hempty]⟩

end Recorded

section Exactly

variable [Build] (hkeys : ∀ t ∈ trees, t.net < keys.keys.size) (m : Machine) (config : TableConfig)

include hkeys

/-- The ways in which building ends. -/
theorem ends_build_exactly :
    Ends (build trees keys m config)
      (fun f => (∃ c p, f = .error (.multisourceRoute p.key p.mask c) ∧ Torn trees keys c p) ∨
        (¬∃ c p, Torn trees keys c p) ∧
        ∃ c, (∀ c', c' < c → Passes m config (called trees keys c')) ∧
          Stops m config (called trees keys c) f)
      (fun tables => (¬∃ c p, Torn trees keys c p) ∧
        (∀ c, Passes m config (called trees keys c)) ∧
        ∀ c, tables.tableAt c = chipTable config trees keys c) := by
  have hends := EntriesByChip.recorded_ofTrees keys trees
  cases hcollected : EntriesByChip.ofTrees keys trees with
  | error f =>
    obtain ⟨_, rfl, c, p, rfl, hclash⟩ := hends.of_eq_error hcollected hkeys
    unfold build
    rw [hcollected]
    exact .throw (.inl ⟨c, p, rfl, clash_iff_torn.1 hclash⟩)
  | ok collected =>
    have h := hends.of_eq_ok hcollected
    have hwhole : ¬∃ c p, Torn trees keys c p := fun ⟨c, p, htorn⟩ =>
      h.consistent.not_clash c p (clash_iff_torn.2 htorn)
    refine (ends_build_of_collected hcollected m config).imp ?_ ?_
    · rintro f ⟨before, e, after, heq, hbefore, hstops⟩
      have he : e ∈ collected.entries := heq ▸ List.mem_append_right _ List.mem_cons_self
      refine .inr ⟨hwhole, e.1, fun c' hlt => passes_called h fun d hd hchip => ?_,
        (called_eq_of_mem h he).symm ▸ hstops⟩
      -- chips are taken in the order of the scan
      have hascending := collected.ascending
      rw [heq] at hd hascending
      exact hbefore d (Ascending.mem_before hascending hd (hchip ▸ hlt))
    · rintro tables ⟨hpasses, rfl⟩
      refine ⟨hwhole, fun c => passes_called h fun e he _ => hpasses e he, fun c => ?_⟩
      rw [tableAt_ofCollected, h.entriesAt_eq, chipTable]

theorem build_eq_multisource_iff :
    (∃ key mask c, build trees keys m config = .error (.error (.multisourceRoute key mask c))) ↔
      ∃ c p, Torn trees keys c p := by
  have hends := ends_build_exactly hkeys m config
  constructor
  · rintro ⟨key, mask, c, hbuild⟩
    rcases hends.of_eq_error hbuild with ⟨c, p, _, htorn⟩ | ⟨_, _, _, hstops⟩
    · exact ⟨c, p, htorn⟩
    · cases hstops
  · intro htorn
    cases hbuild : build trees keys m config with
    | ok tables => exact absurd htorn (hends.of_eq_ok hbuild).1
    | error f =>
      rcases hends.of_eq_error hbuild with ⟨c, p, rfl, _⟩ | ⟨hwhole, _⟩
      · exact ⟨_, _, c, rfl⟩
      · exact absurd htorn hwhole

theorem build_eq_overflow_iff :
    (∃ c n limit, build trees keys m config =
        .error (.error (.routingTableOverflow c n limit))) ↔
      (¬∃ c p, Torn trees keys c p) ∧ ∃ c, Overfull m config trees keys c ∧
        ∀ c', ¬c < c' → ¬Caught config trees keys c' := by
  have hends := ends_build_exactly hkeys m config
  constructor
  · rintro ⟨c, n, limit, hbuild⟩
    rcases hends.of_eq_error hbuild with ⟨_, _, heq, _⟩ | ⟨hwhole, c₀, hbefore, hstops⟩
    · cases heq
    · obtain ⟨hasserted, hover⟩ : (Build.asserts → MergesAlike config (called trees keys c₀).2) ∧
          Overfull m config trees keys c₀ := by
        cases hstops with | overflow hasserted hover => exact ⟨hasserted, hover⟩
      refine ⟨hwhole, c₀, hover, fun c' hle hcaught => ?_⟩
      by_cases hlt : c' < c₀
      · exact (passes_called_iff.1 (hbefore c' hlt)).2 hcaught
      · rw [StrictLinear.connected hlt hle] at hcaught
        exact hcaught.2 (hasserted hcaught.1)
  · rintro ⟨hwhole, c, hover, huncaught⟩
    cases hbuild : build trees keys m config with
    | ok tables => exact absurd hover (passes_called_iff.1 ((hends.of_eq_ok hbuild).2.1 c)).1
    | error f =>
      rcases hends.of_eq_error hbuild with ⟨c, p, _, htorn⟩ | ⟨_, c₀, hbefore, hstops⟩
      · exact absurd ⟨c, p, htorn⟩ hwhole
      cases hstops with
      | overflow _ _ => exact ⟨_, _, _, rfl⟩
      | misrouting hchecked hchanged =>
        have hlt : c < c₀ := not_not.1 fun hle => huncaught c₀ hle ⟨hchecked, hchanged⟩
        exact absurd hover (passes_called_iff.1 (hbefore c hlt)).1

theorem build_eq_misrouting_iff :
    (∃ c, build trees keys m config = .error (.defect (.misrouting c))) ↔
      (¬∃ c p, Torn trees keys c p) ∧ ∃ c, Caught config trees keys c ∧
        ∀ c', c' < c → ¬Overfull m config trees keys c' := by
  have hends := ends_build_exactly hkeys m config
  constructor
  · rintro ⟨c, hbuild⟩
    rcases hends.of_eq_error hbuild with ⟨_, _, heq, _⟩ | ⟨hwhole, c₀, hbefore, hstops⟩
    · cases heq
    · have hcaught : Caught config trees keys c₀ := by
        cases hstops with | misrouting hchecked hchanged => exact ⟨hchecked, hchanged⟩
      exact ⟨hwhole, c₀, hcaught, fun c' hlt => (passes_called_iff.1 (hbefore c' hlt)).1⟩
  · rintro ⟨hwhole, c, hcaught, hfits⟩
    cases hbuild : build trees keys m config with
    | ok tables => exact absurd hcaught (passes_called_iff.1 ((hends.of_eq_ok hbuild).2.1 c)).2
    | error f =>
      rcases hends.of_eq_error hbuild with ⟨c, p, _, htorn⟩ | ⟨_, c₀, hbefore, hstops⟩
      · exact absurd ⟨c, p, htorn⟩ hwhole
      cases hstops with
      | misrouting _ _ => exact ⟨_, rfl⟩
      | overflow hasserted hover =>
        have hle : ¬c₀ < c := fun hlt => hfits c₀ hlt hover
        by_cases hlt : c < c₀
        · exact absurd hcaught (passes_called_iff.1 (hbefore c hlt)).2
        · rw [StrictLinear.connected hlt hle] at hcaught
          exact absurd (hasserted hcaught.1) hcaught.2

theorem build_eq_ok_iff : (∃ tables, build trees keys m config = .ok tables) ↔
    (¬∃ c p, Torn trees keys c p) ∧ (¬∃ c, Overfull m config trees keys c) ∧
      ¬∃ c, Caught config trees keys c := by
  have hends := ends_build_exactly hkeys m config
  constructor
  · rintro ⟨tables, hbuild⟩
    obtain ⟨hwhole, hpasses, _⟩ := hends.of_eq_ok hbuild
    exact ⟨hwhole, fun ⟨c, hover⟩ => (passes_called_iff.1 (hpasses c)).1 hover,
      fun ⟨c, hcaught⟩ => (passes_called_iff.1 (hpasses c)).2 hcaught⟩
  · rintro ⟨hwhole, hfits, huncaught⟩
    cases hbuild : build trees keys m config with
    | ok tables => exact ⟨tables, rfl⟩
    | error f =>
      rcases hends.of_eq_error hbuild with ⟨c, p, _, htorn⟩ | ⟨_, c, _, hstops⟩
      · exact absurd ⟨c, p, htorn⟩ hwhole
      · have hpasses : Passes m config (called trees keys c) :=
          passes_called_iff.2 ⟨fun hover => hfits ⟨c, hover⟩, fun hcaught => huncaught ⟨c, hcaught⟩⟩
        exact absurd hstops hpasses.not_stops

end Exactly

/-- Building fails exactly where it must. Two nodes on a chip that ask for different routes with one
pattern stop it, and it names the chip and the pattern of such nodes. Without any, a chip whose router
does not hold its table stops it, and it names the first such chip, with the length of the table and
the limit. Otherwise all chips have their tables. A build that checks assertions stops as well at a
chip where merging has changed a route, and names the first such chip, if no chip before it stops
it. -/
theorem build_refuses [Build] (hkeys : ∀ t ∈ trees, t.net < keys.keys.size) (m : Machine)
    (config : TableConfig) :
    ((∃ key mask c, build trees keys m config =
        .error (.error (.multisourceRoute key mask c))) ↔ ∃ c p, Torn trees keys c p) ∧
    (∀ key mask c, build trees keys m config = .error (.error (.multisourceRoute key mask c)) →
      Torn trees keys c ⟨key, mask⟩) ∧
    ((∃ c n limit, build trees keys m config =
        .error (.error (.routingTableOverflow c n limit))) ↔
      (¬∃ c p, Torn trees keys c p) ∧ ∃ c, Overfull m config trees keys c ∧
        ∀ c', ¬c < c' → ¬Caught config trees keys c') ∧
    (∀ c n limit, build trees keys m config =
        .error (.error (.routingTableOverflow c n limit)) →
      n = (chipTable config trees keys c).length ∧ limit = m.routerLimit c ∧ limit < n ∧
        ∀ c', c' < c → (chipTable config trees keys c').length ≤ m.routerLimit c') ∧
    ((∃ c, build trees keys m config = .error (.defect (.misrouting c))) ↔
      (¬∃ c p, Torn trees keys c p) ∧ ∃ c, Caught config trees keys c ∧
        ∀ c', c' < c → ¬Overfull m config trees keys c') ∧
    (∀ c, build trees keys m config = .error (.defect (.misrouting c)) →
      Caught config trees keys c ∧ ∀ c', c' < c → ¬Caught config trees keys c') ∧
    ((∃ tables, build trees keys m config = .ok tables) ↔
      (¬∃ c p, Torn trees keys c p) ∧ (¬∃ c, Overfull m config trees keys c) ∧
        ¬∃ c, Caught config trees keys c) ∧
    ∀ tables, build trees keys m config = .ok tables →
      ∀ c, tables.tableAt c = chipTable config trees keys c := by
  have hends := ends_build_exactly hkeys m config
  refine ⟨build_eq_multisource_iff hkeys m config, fun key mask c hbuild => ?_,
    build_eq_overflow_iff hkeys m config, fun c n limit hbuild => ?_,
    build_eq_misrouting_iff hkeys m config, fun c hbuild => ?_,
    build_eq_ok_iff hkeys m config, fun tables hbuild => (hends.of_eq_ok hbuild).2.2⟩
  · rcases hends.of_eq_error hbuild with ⟨c, p, heq, htorn⟩ | ⟨_, _, _, hstops⟩
    · cases heq
      exact htorn
    · cases hstops
  · rcases hends.of_eq_error hbuild with ⟨_, _, heq, _⟩ | ⟨_, _, hbefore, hstops⟩
    · cases heq
    · cases hstops with
      | overflow _ hover => exact ⟨rfl, rfl, hover, fun c' hlt => (hbefore c' hlt).length_le⟩
  · rcases hends.of_eq_error hbuild with ⟨_, _, heq, _⟩ | ⟨_, _, hbefore, hstops⟩
    · cases heq
    · cases hstops with
      | misrouting hchecked hchanged =>
        exact ⟨⟨hchecked, hchanged⟩, fun c' hlt => (passes_called_iff.1 (hbefore c' hlt)).2⟩

/-- Ways with one key that part on the chip where they start. -/
def partingTrees : List RoutingTree :=
  [⟨0, #[⟨⟨1, 0⟩, none, [(.west, 1)], false, []⟩, ⟨⟨0, 0⟩, some .east, [], true, []⟩]⟩,
    ⟨1, #[⟨⟨1, 0⟩, none, [(.east, 1)], false, []⟩, ⟨⟨2, 0⟩, some .west, [], true, []⟩]⟩]

/-- The ways that part are refused, and those that join as long as the router in the middle holds one
entry only. -/
theorem build_refuses_parting :
    ((∀ t ∈ partingTrees, t.net < meetingKeys.keys.size) ∧
      ∀ t ∈ joiningTrees, t.net < joiningKeys.keys.size) ∧
    Torn partingTrees meetingKeys ⟨1, 0⟩ ⟨1, 7⟩ ∧
    (∃ key mask c, build partingTrees meetingKeys meeting {} =
      .error (.error (.multisourceRoute key mask c))) ∧
    (¬∃ c p, Torn joiningTrees joiningKeys c p) ∧
    (chipTable { elide := true } joiningTrees joiningKeys ⟨1, 0⟩).length = 2 ∧
    (chipTable { elide := true } joiningTrees joiningKeys ⟨0, 0⟩).length ≤ narrow.routerLimit ⟨0, 0⟩ ∧
    ¬∃ c, Overfull narrow { elide := false } joiningTrees joiningKeys c := by
  have hparting : ∀ t ∈ partingTrees, t.net < meetingKeys.keys.size := by decide
  have hjoining : ∀ t ∈ joiningTrees, t.net < joiningKeys.keys.size := by decide
  have htorn : Torn partingTrees meetingKeys ⟨1, 0⟩ ⟨1, 7⟩ :=
    ⟨partingTrees[0], by simp [partingTrees], partingTrees[1], by simp [partingTrees], ⟨1, 7⟩, ⟨1, 7⟩,
      rfl, rfl, by decide, by decide, ⟨⟨1, 0⟩, none, [(.west, 1)], false, []⟩, by simp [partingTrees],
      ⟨⟨1, 0⟩, none, [(.east, 1)], false, []⟩, by simp [partingTrees], rfl, rfl, by decide⟩
  have hbuild : build joiningTrees joiningKeys narrow { elide := true } =
      .error (.error (.routingTableOverflow ⟨1, 0⟩ 2 1)) := by
    cbv
  have hwhole : build joiningTrees joiningKeys narrow { elide := false } = .ok joinedTables := by cbv
  obtain ⟨hsources, _⟩ := build_refuses hparting meeting {}
  obtain ⟨_, _, _, hnames, _⟩ := build_refuses hjoining narrow { elide := true }
  obtain ⟨_, _, _, _, _, _, hok, _⟩ := build_refuses hjoining narrow { elide := false }
  obtain ⟨hlength, _, _, hbefore⟩ := hnames _ _ _ hbuild
  obtain ⟨hone, hfits, _⟩ := hok.1 ⟨_, hwhole⟩
  exact ⟨⟨hparting, hjoining⟩, htorn, hsources.2 ⟨_, _, htorn⟩, hone, hlength.symm,
    hbefore ⟨0, 0⟩ (by decide), hfits⟩

/-- Two ways that start and end on a chip, and one with keys of both that leaves it. -/
def crossingTrees : List RoutingTree :=
  [⟨0, #[⟨⟨0, 0⟩, none, [], true, []⟩]⟩,
    ⟨1, #[⟨⟨0, 0⟩, none, [(.east, 1)], false, []⟩, ⟨⟨1, 0⟩, some .west, [], true, []⟩]⟩,
    ⟨2, #[⟨⟨0, 0⟩, none, [], true, []⟩]⟩]

def crossingKeys : KeyAssignment := ⟨⟨0, 0, 2⟩, #[⟨1, 1⟩, ⟨0, 0⟩, ⟨2, 2⟩]⟩

/-- Where entries of two routes overlap, minimising can change the order in which they come. Then a
build that checks assertions has no table for a chip whose router holds it. -/
theorem build_asserts_crossing :
    (∀ t ∈ crossingTrees, t.net < crossingKeys.keys.size) ∧
    (¬∃ c p, Torn crossingTrees crossingKeys c p) ∧
    (¬∃ c, Overfull meeting {} crossingTrees crossingKeys c) ∧
    (∃ tables, @build .forUse crossingTrees crossingKeys meeting {} = .ok tables) ∧
    @build .forTests crossingTrees crossingKeys meeting {} =
      .error (.defect (.misrouting ⟨0, 0⟩)) := by
  have hkeys : ∀ t ∈ crossingTrees, t.net < crossingKeys.keys.size := by decide
  have hbuild : @build .forUse crossingTrees crossingKeys meeting {} =
      .ok (.ofList [(⟨0, 0⟩, [⟨⟨0, 0⟩, ⟨1⟩⟩, ⟨⟨1, 1⟩, ⟨64⟩⟩, ⟨⟨2, 2⟩, ⟨64⟩⟩]),
        (⟨1, 0⟩, [⟨⟨0, 0⟩, ⟨64⟩⟩])]) := by
    cbv
  obtain ⟨hwhole, hpasses, _⟩ := (ends_build_exactly hkeys meeting {}).of_eq_ok hbuild
  refine ⟨hkeys, hwhole, ?_, ⟨_, hbuild⟩, by cbv⟩
  rintro ⟨c, hover⟩
  exact (passes_called_iff.1 (hpasses c)).1 hover

end HexFabric.RoutingTables
