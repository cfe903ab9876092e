import HexFabric.Proofs.Pipeline.Minimise
import HexFabric.Proofs.Table.Fitting

/-! The tables in the output of a run. They are for live chips, each fits its router, and every key
is accepted by one entry at most, on the way of the net whose key it is: `Graph.mapOnto_tables`. -/

namespace HexFabric

/-- A tree whose source works comes to chips that work. -/
theorem Branching.live {m : Machine} {source : Chip} {nodes : Array RouteNode}
    (h : Branching m source nodes) (hsource : m.Live source) {n : RouteNode} (hn : n ∈ nodes) :
    m.Live n.chip := by
  obtain ⟨j, hj⟩ := Array.mem_iff_getElem?.1 hn
  have hat : NodeAt nodes j n.chip n.arrivedOn := nodeAt_of_getElem? hj
  rcases Nat.eq_zero_or_pos j with rfl | hpos
  · exact h.root.chip_eq hat ▸ hsource
  · obtain ⟨i, l, hchild⟩ := h.parent j hat.lt_size hpos
    obtain ⟨c, _, next, _, hnext, hhop⟩ := h.hop i l j hchild
    exact hnext.chip_eq hat ▸ (Machine.live_of_hop hhop).2

namespace Draft.Sound

variable {g : Graph} {m : Machine} {d : Draft} {t : RoutingTree}

theorem exists_source (h : d.Sound g m) {n : SlicedNet} (hn : n ∈ d.part.nets) :
    ∃ c, d.placement.chips[n.source]? = some c ∧ m.Live c :=
  h.placed.exists_chip (h.part.source n hn)

theorem live (h : d.Sound g m) (ht : t ∈ d.trees) {n : RouteNode} (hn : n ∈ t.nodes) :
    m.Live n.chip := by
  obtain ⟨net, _, hnet, c, _, hc, hserves, _⟩ := h.routed.net ht
  obtain ⟨c', hc', hlive⟩ := h.exists_source (Array.mem_of_getElem? hnet)
  rw [hc] at hc'
  cases hc'
  exact hserves.toBranching.live hlive hn

theorem accepts_iff (h : d.Sound g m) {i : Nat} {k : Pattern} (hk : d.keys.keyOf i = .ok k)
    (w : BitVec 32) : (Pattern.of k.key k.mask).accepts w ↔ w &&& d.keys.layout.mask = k.key := by
  have hsource : ∀ n ∈ d.part.nets, ∃ c, d.placement.chips[n.source]? = some c :=
    fun n hn => (h.exists_source hn).imp fun _ hc => hc.1
  have hclean : k.key &&& k.mask = k.key := h.numbered.clean hsource (fetch_eq_ok.1 hk)
  rw [Pattern.accepts_iff, ← h.numbered.mask_eq hsource (fetch_eq_ok.1 hk), Pattern.of, hclean]

end Draft.Sound

/-- In an output, tables stand by chip and are for live chips. None is empty or has more entries
than the router takes. Entries stand by mask and key, no key has bits outside its mask, and every
key is accepted by one entry of a chip at most, so that the order of entries does not matter. An
entry of a chip accepts a key only if its fields are the key of a net whose tree comes there. -/
theorem Graph.mapOnto_tables [Build] {g : Graph} {m : Machine} {config : Config} {clock : Nat → Nat}
    {out : Output} (h : g.mapOnto m config clock = .ok out) :
    out.tables.keys.Pairwise (· < ·) ∧
    ∃ d, g.draft m config clock = .ok d ∧ d.output out.tables = out ∧
      ∀ c table, (c, table) ∈ out.tables.entries →
        m.Live c ∧ table ≠ [] ∧ table.length ≤ m.routerLimit c ∧
        table.Pairwise (·.pattern < ·.pattern) ∧
        (∀ e ∈ table, e.pattern.key &&& e.pattern.mask = e.pattern.key) ∧
        ∀ w, table.countP (·.pattern.accepts w) ≤ 1 ∧
          (∀ reordered, reordered.Perm table → lookup reordered w = lookup table w) ∧
          ∀ e ∈ table, e.pattern.accepts w → ∃ i t k, d.trees[i]? = some t ∧ t.net = i ∧
            out.keys.keyOf i = .ok k ∧ w &&& out.keys.layout.mask = k.key ∧
            ∃ n ∈ t.nodes, n.chip = c := by
  obtain ⟨d, hdraft, tables, hbuild, rfl⟩ := mapOnto_eq_ok.1 h
  obtain ⟨hchips, hform⟩ := RoutingTables.form_of_build hbuild (Draft.unshared hdraft).separateKeys
  refine ⟨hchips, d, hdraft, rfl, fun c table hmem => ?_⟩
  obtain ⟨hne, hlength, hexclusive, hsorted, hvisited⟩ := hform c table hmem
  have hlive : m.Live c := by
    obtain ⟨e, he⟩ := List.exists_mem_of_ne_nil table hne
    have hself : e.pattern.accepts e.pattern.key := Pattern.accepts_iff.2 (hexclusive.clean e he)
    obtain ⟨t, ht, _, _, _, n, hn, rfl⟩ := hvisited e he _ hself
    exact (Draft.sound_of_mem hdraft ht).live ht hn
  refine ⟨hlive, hne, hlength, hsorted, hexclusive.clean, fun w => ⟨?_, ?_, ?_⟩⟩
  · refine countP_le_one (hsorted.imp_of_mem fun {a b} ha hb hlt hkey => ?_)
    rw [hexclusive.unique a ha b hb w hkey.1 hkey.2] at hlt
    exact StrictLinear.irrefl _ hlt
  · intro reordered hperm
    exact hexclusive.unambiguous.lookup_congr (fun _ _ => Offers.perm hperm) w
  · intro e he hw
    obtain ⟨t, ht, k, hk, hkey, hnode⟩ := hvisited e he w hw
    have hsound : d.Sound g m := Draft.sound_of_mem hdraft ht
    obtain ⟨_, htree, _⟩ := hsound.routed.net ht
    exact ⟨t.net, t, k, htree, rfl, hk, (hsound.accepts_iff hk w).1 hkey, hnode⟩

/-- The two flows along the row share an entry at both ends. -/
def mergedOutput : Output :=
  { doubleOutput with
    tables := .ofList [(⟨0, 0⟩, [⟨⟨0, 6⟩, ⟨1⟩⟩]), (⟨2, 0⟩, [⟨⟨0, 6⟩, ⟨64⟩⟩])] }

theorem mapOnto_merged :
    doubleGraph.mapOnto row (rowConfig.withMinimise true) (fun _ => 0) = .ok mergedOutput := by
  cbv

theorem Graph.mapOnto_tables_merged :
    doubleGraph.mapOnto row (rowConfig.withMinimise true) (fun _ => 0) = .ok mergedOutput ∧
    row.Live ⟨2, 0⟩ ∧ ∃ i k, mergedOutput.keys.keyOf i = .ok k ∧ k.key = 9 &&& 7 := by
  refine ⟨mapOnto_merged, ?_⟩
  obtain ⟨_, d, _, _, htables⟩ := mapOnto_tables mapOnto_merged
  obtain ⟨hlive, _, _, _, _, hkeys⟩ :=
    htables ⟨2, 0⟩ [⟨⟨0, 6⟩, ⟨64⟩⟩] (by decide +kernel)
  obtain ⟨i, _, k, _, _, hk, hkey, _⟩ := (hkeys 9).2.2 _ List.mem_cons_self (by decide)
  exact ⟨hlive, i, k, hk, hkey.symm⟩

end HexFabric
