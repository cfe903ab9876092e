import HexFabric.Proofs.Partition

/-! Which nets join a slice. The table made of the nets lists for each slice exactly the nets that
have it as source or sink, ascending, and it can be made just if these are slices:
`Partitioning.incidence_of_sliceNets`. -/

namespace HexFabric.Partitioning

/-- `t` lists for each slice the nets that join it, ascending. -/
structure Incidence (p : Partitioning) (t : Array (List Nat)) : Prop where
  size : t.size = p.slices.size
  ascending : ∀ nets ∈ t, nets.Pairwise (· < ·)
  mem_iff : ∀ s nets, t[s]? = some nets →
    ∀ i, i ∈ nets ↔ ∃ n : SlicedNet, p.nets[i]? = some n ∧ (n.source = s ∨ s ∈ n.sinks)

variable {g : Graph} {p : Partitioning} {t : Array (List Nat)}

theorem Incidence.lt (h : p.Incidence t) : ∀ nets ∈ t, ∀ i ∈ nets, i < p.nets.size := by
  intro nets hnets i hi
  obtain ⟨s, hs⟩ := Array.mem_iff_getElem?.1 hnets
  obtain ⟨n, hn, _⟩ := (h.mem_iff s nets hs i).1 hi
  exact (Array.getElem?_eq_some_iff.1 hn).1

/-- `t'` is `t` with some nets added at each slice. -/
structure Adds (t t' : Array (List Nat)) (new : Nat → List Nat) : Prop where
  size : t'.size = t.size
  getElem? : ∀ s, t'[s]? = t[s]?.map (· ++ new s)

theorem returns_noteNet (i : Nat) {terminals : List Nat} (hnodup : terminals.Nodup)
    (h : ∀ s ∈ terminals, s < t.size) :
    Returns (noteNet i terminals t) fun t' =>
      Adds t t' fun s => if s ∈ terminals then [i] else [] := by
  induction terminals generalizing t with
  | nil => exact .pure ⟨rfl, by simp⟩
  | cons s rest ih =>
    rw [List.nodup_cons] at hnodup
    unfold noteNet at ih ⊢
    rw [List.foldlM_cons, adjust_of_lt (h s List.mem_cons_self)]
    refine (ih hnodup.2 fun s' hs' => ?_).mono fun t' ht' => ⟨?_, fun s' => ?_⟩
    · rw [Array.size_modify]
      exact h s' (List.mem_cons_of_mem _ hs')
    · rw [ht'.size, Array.size_modify]
    · rw [ht'.getElem?, Array.getElem?_modify]
      by_cases hs : s = s'
      · -- `s` is not in `rest`, so the net is noted here and not again
        subst hs
        rw [if_pos rfl, Option.map_map]
        refine congrArg (Option.map · t[s]?) (funext fun nets => ?_)
        simp [hnodup.1]
      · simp [hs, Ne.symm hs]

/-- The numbers of those of some nets that join slice `s`. -/
def noted (l : List (SlicedNet × Nat)) (s : Nat) : List Nat :=
  (l.filter fun e => s ∈ e.1.terminals).map (·.2)

theorem noted_cons (e : SlicedNet × Nat) (rest : List (SlicedNet × Nat)) (s : Nat) :
    noted (e :: rest) s = (if s ∈ e.1.terminals then [e.2] else []) ++ noted rest s := by
  unfold noted
  by_cases hs : s ∈ e.1.terminals
  · rw [List.filter_cons_of_pos (by simpa using hs), if_pos hs]
    rfl
  · rw [List.filter_cons_of_neg (by simpa using hs), if_neg hs]
    rfl

theorem returns_noteNets {l : List (SlicedNet × Nat)}
    (h : ∀ e ∈ l, ∀ s ∈ e.1.terminals, s < t.size) :
    Returns (l.foldlM (fun t e => noteNet e.2 e.1.terminals t) t) fun t' =>
      Adds t t' (noted l) := by
  induction l generalizing t with
  | nil => exact .pure ⟨rfl, by simp [noted]⟩
  | cons e rest ih =>
    rw [List.foldlM_cons]
    have hnodup : e.1.terminals.Nodup := InsertionSet.distinct _
    refine (returns_noteNet e.2 hnodup (h e List.mem_cons_self)).bind fun t₁ ht₁ => ?_
    refine (ih fun e' he' s hs => ?_).mono fun t' ht' => ⟨ht'.size.trans ht₁.size, fun s => ?_⟩
    · exact ht₁.size ▸ h e' (List.mem_cons_of_mem _ he') s hs
    · rw [ht'.getElem?, ht₁.getElem?, Option.map_map, noted_cons]
      refine congrArg (Option.map · t[s]?) (funext fun nets => ?_)
      rw [Function.comp_apply, List.append_assoc]

/-- All terminals of nets are slices. -/
def Joins (p : Partitioning) : Prop := ∀ n ∈ p.nets, ∀ s ∈ n.source :: n.sinks, s < p.slices.size

theorem Joins.returns_sliceNets (h : p.Joins) : Returns p.sliceNets p.Incidence := by
  have hterminals : ∀ e ∈ p.nets.toList.zipIdx, ∀ s ∈ e.1.terminals,
      s < (Array.replicate p.slices.size ([] : List Nat)).size := by
    intro e he s hs
    rw [Array.size_replicate]
    exact h e.1 (Array.mem_of_getElem? (getElem?_of_mem_zipIdx he)) s
      (InsertionSet.mem_elems_ofList.1 hs)
  refine (returns_noteNets hterminals).mono fun t ht => ?_
  have hsize : t.size = p.slices.size := ht.size.trans Array.size_replicate
  have hat : ∀ s nets, t[s]? = some nets → nets = noted p.nets.toList.zipIdx s := by
    intro s nets hs
    rw [ht.getElem?, Array.getElem?_replicate] at hs
    split at hs
    · exact (Option.some.inj hs).symm
    · cases hs
  refine ⟨hsize, fun nets hnets => ?_, fun s nets hs i => ?_⟩
  · obtain ⟨s, hs⟩ := Array.mem_iff_getElem?.1 hnets
    rw [hat s nets hs, noted, List.pairwise_map]
    exact (pairwise_zipIdx _).filter _
  · rw [hat s nets hs, noted, List.mem_map]
    constructor
    · rintro ⟨e, he, rfl⟩
      obtain ⟨he, hjoins⟩ := List.mem_filter.1 he
      refine ⟨e.1, getElem?_of_mem_zipIdx he, ?_⟩
      have := InsertionSet.mem_elems_ofList.1 (of_decide_eq_true hjoins)
      rwa [List.mem_cons, eq_comm] at this
    · rintro ⟨n, hn, hjoins⟩
      refine ⟨(n, i), List.mem_filter.2 ⟨?_, decide_eq_true ?_⟩, rfl⟩
      · rw [List.mk_mem_zipIdx_iff_getElem?, Array.getElem?_toList, hn]
      · rwa [SlicedNet.terminals, InsertionSet.mem_elems_ofList, List.mem_cons, eq_comm]

theorem Sound.returns_sliceNets (h : p.Sound g) : Returns p.sliceNets p.Incidence :=
  Joins.returns_sliceNets fun _ hn _ hs => h.terminals_lt hn hs

/-! ### Tables that could be made -/

theorem lt_of_noteNet {i : Nat} {terminals : List Nat} {t' : Array (List Nat)}
    (h : noteNet i terminals t = .ok t') : t'.size = t.size ∧ ∀ s ∈ terminals, s < t.size := by
  induction terminals generalizing t with
  | nil =>
    cases h
    exact ⟨rfl, nofun⟩
  | cons s rest ih =>
    unfold noteNet at ih h
    rw [List.foldlM_cons, bind_eq_ok] at h
    obtain ⟨t₁, hadjust, h⟩ := h
    obtain ⟨hs, rfl⟩ := adjust_eq_ok.1 hadjust
    obtain ⟨hsize, hrest⟩ := ih h
    rw [Array.size_modify] at hsize hrest
    exact ⟨hsize, List.forall_mem_cons.2 ⟨hs, hrest⟩⟩

/-- Where there is a table of the nets of each slice, it is the right one. -/
theorem incidence_of_sliceNets (h : p.sliceNets = .ok t) : p.Joins ∧ p.Incidence t := by
  suffices hlt : ∀ l : List (SlicedNet × Nat), ∀ t₀ : Array (List Nat),
      l.foldlM (fun t e => noteNet e.2 e.1.terminals t) t₀ = .ok t →
      ∀ e ∈ l, ∀ s ∈ e.1.terminals, s < t₀.size by
    have hjoins : p.Joins := by
      intro n hn s hs
      obtain ⟨i, hi⟩ := Array.mem_iff_getElem?.1 hn
      have he : (n, i) ∈ p.nets.toList.zipIdx := by
        rw [List.mk_mem_zipIdx_iff_getElem?, Array.getElem?_toList, hi]
      have := hlt _ _ h (n, i) he s (InsertionSet.mem_elems_ofList.2 hs)
      rwa [Array.size_replicate] at this
    exact ⟨hjoins, hjoins.returns_sliceNets.of_eq_ok h⟩
  intro l
  induction l with
  | nil => exact fun _ _ => nofun
  | cons e rest ih =>
    intro t₀ h
    rw [List.foldlM_cons, bind_eq_ok] at h
    obtain ⟨t₁, hnote, h⟩ := h
    obtain ⟨hsize, hterminals⟩ := lt_of_noteNet hnote
    exact List.forall_mem_cons.2 ⟨hterminals, hsize ▸ ih t₁ h⟩

end HexFabric.Partitioning
