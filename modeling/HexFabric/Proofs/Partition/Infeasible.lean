import HexFabric.Proofs.Partition.Granule

/-! When a graph cannot be partitioned. Partitioning a graph that makes sense, for a machine with a
live chip, is infeasible exactly if some vertex cannot be divided into slices that fit, and then the
first such vertex is named, with its first granule that fits nowhere:
`Graph.partition_infeasible`. -/

namespace HexFabric

namespace Graph

variable {g : Graph} {m : Machine}

theorem sensible_of_validate (h : g.validate m = .ok ()) : ∀ v ∈ g.vertices, v.Sensible := by
  have hfault := validate_eq_ok_iff.1 h
  unfold fault? at hfault
  simp only [Option.or_eq_none_iff, List.findSome?_eq_none_iff] at hfault
  exact fun v hv => Vertex.vertexFault?_eq_none_iff.1 (hfault.1.1.1.1 v hv)

/-- The error `e` is about the first of some vertices that cannot be divided. -/
def Blames (vertices : List Vertex) (m : Machine) (e : Error) : Prop :=
  ∃ i v, vertices[i]? = some v ∧ (∀ w ∈ vertices.take i, ∃ ranges, w.Division m ranges) ∧
    v.Blames m 0 e

/-- Cutting goes on with the vertices that follow those that can be divided. -/
theorem ends_cutAll_division (hlive : ∃ c, m.Live c) {done rest : List Vertex}
    (hdone : ∀ w ∈ done, ∃ ranges, w.Division m ranges) (hrest : ∀ v ∈ rest, v.Sensible)
    (p : Partitioning) :
    Ends ((rest.zipIdx done.length).foldlM (fun p e => do
        let ranges ← e.1.cut m.capacityProfiles 0 e.1.extent
        return p.addSlices (← Partitioning.slicesOf e.1 e.2 ranges)) p : Outcome Partitioning)
      (fun f => ∀ e, f = .error e → Blames (done ++ rest) m e)
      fun _ => ∀ w ∈ done ++ rest, ∃ ranges, w.Division m ranges := by
  induction rest generalizing done p with
  | nil => exact .pure (by rwa [List.append_nil])
  | cons v rest ih =>
    have hv := hrest v List.mem_cons_self
    rw [List.zipIdx_cons, List.foldlM_cons]
    -- `v` has as its number how many have been divided before it
    have hfirst : Ends (do
        let ranges ← v.cut m.capacityProfiles 0 v.extent
        return p.addSlices (← Partitioning.slicesOf v done.length ranges) : Outcome Partitioning)
        (fun f => ∀ e, f = .error e → Blames (done ++ v :: rest) m e)
        fun _ => ∃ ranges, v.Division m ranges := by
      refine Ends.bind ((hv.ends_cut_division hlive).imp ?_ fun _ => id) fun ranges hranges => ?_
      · rintro _ ⟨e, rfl, he⟩ _ heq
        cases heq
        refine ⟨done.length, v, by simp, ?_, he⟩
        rwa [List.take_left]
      · exact (Ends.lift_of_checked _).bind fun _ _ => .pure ⟨ranges, hranges⟩
    refine hfirst.bind fun p' hdivision => ?_
    have hdone' : ∀ w ∈ done ++ [v], ∃ ranges, w.Division m ranges := by
      intro w hw
      rcases List.mem_append.1 hw with hw | hw
      · exact hdone w hw
      · exact List.mem_singleton.1 hw ▸ hdivision
    have hnext := ih hdone' (fun v hv => hrest v (List.mem_cons_of_mem _ hv)) p'
    rwa [List.length_append, List.length_singleton, List.append_assoc] at hnext

/-- All vertices can be divided, or the first that cannot is blamed. -/
theorem ends_partition_division (hg : g.validate m = .ok ()) (hlive : ∃ c, m.Live c) :
    Ends (g.partition m) (fun f => ∃ e, f = .error e ∧ Blames g.vertices (g.usable m) e)
      fun _ => ∀ v ∈ g.vertices, ∃ ranges, v.Division (g.usable m) ranges := by
  have husable : ∃ c, (g.usable m).Live c :=
    hlive.imp fun c => (g.sameLinks_usable m).live_iff.2
  have hnil : ∀ w ∈ ([] : List Vertex), ∃ ranges, w.Division (g.usable m) ranges := by simp
  have hcut := ends_cutAll_division husable hnil (sensible_of_validate hg) Partitioning.empty
  have herrors : Ends (g.partition m) (fun f => ∀ e, f = .error e → Blames g.vertices (g.usable m) e)
      fun _ => ∀ v ∈ g.vertices, ∃ ranges, v.Division (g.usable m) ranges := by
    unfold partition
    rw [hg]
    refine Ends.bind (P := fun _ => True) (.liftError trivial) fun _ _ => ?_
    extract_lets profiles jp
    have hsome : profiles ≠ [] := by
      obtain ⟨c, hc⟩ := husable
      exact List.ne_nil_of_mem (Machine.mem_capacityProfiles.2 ⟨c, hc, rfl⟩)
    rw [if_neg fun hnone => hsome hnone.1]
    exact hcut.bind fun _ hall => (Ends.lift_of_checked _).mono fun _ _ => hall
  have hexpected := g.ends_partition m
  cases hpart : g.partition m with
  | ok part => exact herrors.of_eq_ok hpart
  | error f =>
    cases f with
    | error e => exact ⟨e, rfl, herrors.of_eq_error hpart e rfl⟩
    | defect d => exact (hexpected.of_eq_error hpart).elim

/-- Partitioning is infeasible exactly if some vertex cannot be divided into slices that fit live
chips, that is, if one of its granules fits none. The first such vertex is named, and its first such
granule with what it needs and what some live chip offers. -/
theorem partition_infeasible (hg : g.validate m = .ok ()) (hlive : ∃ c, m.Live c) :
    ((∃ name atoms s, g.partition m = .error (.error (.partitionInfeasible name atoms s))) ↔
      ∃ v ∈ g.vertices, ¬∃ ranges, v.Division (g.usable m) ranges) ∧
    (∀ v ∈ g.vertices, (¬∃ ranges, v.Division (g.usable m) ranges) ↔
      ∃ k, k * v.granularity < v.extent ∧ ¬v.FitsOn (g.usable m) (v.granule k)) ∧
    ∀ name atoms s, g.partition m = .error (.error (.partitionInfeasible name atoms s)) →
      ∃ i v k, g.vertices[i]? = some v ∧ v.name = name ∧
        (∀ w ∈ g.vertices.take i, ∃ ranges, w.Division (g.usable m) ranges) ∧
        (∀ j < k, v.FitsOn (g.usable m) (v.granule j)) ∧ v.Stuck (g.usable m) k atoms s := by
  have hends := ends_partition_division hg hlive
  have husable : ∃ c, (g.usable m).Live c :=
    hlive.imp fun c => (g.sameLinks_usable m).live_iff.2
  have hgranules : ∀ v ∈ g.vertices, (¬∃ ranges, v.Division (g.usable m) ranges) ↔
      ∃ k, k * v.granularity < v.extent ∧ ¬v.FitsOn (g.usable m) (v.granule k) := by
    intro v hv
    rw [(sensible_of_validate hg v hv).exists_division_iff husable]
    simp only [not_forall, exists_prop]
  refine ⟨⟨?_, ?_⟩, hgranules, ?_⟩
  · rintro ⟨name, atoms, s, hpart⟩
    obtain ⟨_, _, i, v, hv, _, k, _, _, _, hstuck, _⟩ := hends.of_eq_error hpart
    have hmem := List.mem_of_getElem? hv
    exact ⟨v, hmem, (hgranules v hmem).2 ⟨k, hstuck.start, hstuck.nowhere⟩⟩
  · rintro ⟨v, hv, hdivision⟩
    cases hpart : g.partition m with
    | ok part => exact absurd (hends.of_eq_ok hpart v hv) hdivision
    | error f =>
      obtain ⟨_, rfl, _, v, _, _, _, atoms, s, rfl, _⟩ := hends.of_eq_error hpart
      exact ⟨v.name, atoms, s, rfl⟩
  · intro name atoms s hpart
    obtain ⟨_, he, i, v, hv, hbefore, k, _, _, rfl, hstuck, hlowest⟩ := hends.of_eq_error hpart
    cases he
    exact ⟨i, v, k, hv, rfl, hbefore, fun j hj => hlowest j hj (Nat.zero_le _), hstuck⟩

/-- Seven atoms in granules of three, of which the second needs four cores where chips have three
left. -/
def crowded : Graph :=
  { layered with
    vertices := [⟨"input", 1, .none, 1, none⟩,
      ⟨"layer", 7, SortedMap.empty.insert .cores 9, 3, some 6⟩] }

theorem partition_infeasible_crowded :
    crowded.validate pair = .ok () ∧ (∃ c, pair.Live c) ∧
    ∃ name atoms s, crowded.partition pair = .error (.error (.partitionInfeasible name atoms s)) := by
  have hg : crowded.validate pair = .ok () := by decide
  have hlive : ∃ c, pair.Live c := ⟨⟨0, 0⟩, by decide⟩
  obtain ⟨hiff, hgranules, _⟩ := partition_infeasible hg hlive
  refine ⟨hg, hlive, hiff.2 ⟨_, List.mem_cons_of_mem _ List.mem_cons_self, ?_⟩⟩
  refine (hgranules _ (List.mem_cons_of_mem _ List.mem_cons_self)).2 ⟨1, by decide, ?_⟩
  rw [Vertex.granule, ← Vertex.fitsSome_iff_fitsOn]
  decide

end Graph

end HexFabric
