import HexFabric.Machine.Capacity
import HexFabric.Proofs.Containers
import HexFabric.Proofs.Outcome

/-! Sums, differences and comparisons of resources, quantity by quantity. -/

namespace HexFabric.Resources

variable {r s used capacity : Resources} {k : Resource}

@[simp] theorem quantity_none (k : Resource) : Resources.none.quantity k = 0 := rfl

@[simp] theorem quantity_set (r : Resources) (k : Resource) (q : Nat) (k' : Resource) :
    (r.set k q).quantity k' = if k' = k then q else r.quantity k' := by
  unfold quantity set
  rw [SortedMap.get?_insert]
  split <;> rfl

@[simp] theorem quantity_remainingOf (used capacity : Resources) (k : Resource) :
    (used.remainingOf capacity).quantity k = capacity.quantity k - used.quantity k := by
  unfold remainingOf quantity
  rw [SortedMap.get?_mapValues]
  cases capacity.get? k with
  | none => exact (Nat.zero_sub _).symm
  | some q => rfl

/-- The quantity that some entries name. -/
def listed (entries : List (Resource × Nat)) (k : Resource) : Nat := (entries.lookup k).getD 0

theorem listed_cons (e : Resource × Nat) (rest : List (Resource × Nat)) (k : Resource) :
    listed (e :: rest) k = if k = e.1 then e.2 else listed rest k := by
  rw [listed, lookup_cons_eq_ite]
  split <;> rfl

theorem listed_eq_zero {entries : List (Resource × Nat)} (h : k ∉ entries.map (·.1)) :
    listed entries k = 0 := by
  induction entries with
  | nil => rfl
  | cons e rest ih =>
    rw [List.map_cons, List.mem_cons, not_or] at h
    rw [listed_cons, if_neg h.1, ih h.2]

@[simp] theorem quantity_add (r s : Resources) (k : Resource) :
    (r.add s).quantity k = r.quantity k + s.quantity k := by
  suffices ∀ (entries : List (Resource × Nat)) (acc : Resources), (entries.map (·.1)).Nodup →
      (entries.foldl (fun acc e => acc.alter e.1 fun q => q.getD 0 + e.2) acc).quantity k =
        acc.quantity k + listed entries k from this s.entries r s.nodup_keys
  intro entries
  induction entries with
  | nil => exact fun _ _ => rfl
  | cons e rest ih =>
    intro acc hnodup
    rw [List.map_cons, List.nodup_cons] at hnodup
    rw [List.foldl_cons, ih _ hnodup.2, listed_cons, quantity, SortedMap.get?_alter]
    by_cases hk : k = e.1
    · rw [if_pos hk, if_pos hk, Option.getD_some, hk, listed_eq_zero hnodup.1]
      rfl
    · rw [if_neg hk, if_neg hk]
      rfl

/-- A sum names what either of its parts names. -/
theorem mem_keys_add : k ∈ (r.add s).keys ↔ k ∈ r.keys ∨ k ∈ s.keys := by
  suffices ∀ (entries : List (Resource × Nat)) (acc : Resources),
      k ∈ (entries.foldl (fun acc e => acc.alter e.1 fun q => q.getD 0 + e.2) acc).keys ↔
        k ∈ acc.keys ∨ k ∈ entries.map (·.1) from this s.entries r
  intro entries
  induction entries with
  | nil => simp
  | cons e rest ih =>
    intro acc
    rw [List.foldl_cons, ih, SortedMap.mem_keys_alter, List.map_cons, List.mem_cons]
    tauto

/-- A part can be taken away from the whole. -/
theorem returns_sub (h : ∀ k, s.quantity k ≤ r.quantity k) :
    Returns (r.sub s) fun t => ∀ k, t.quantity k = r.quantity k - s.quantity k := by
  suffices ∀ (entries : List (Resource × Nat)) (acc : Resources), (entries.map (·.1)).Nodup →
      (∀ k, listed entries k ≤ acc.quantity k) →
      Returns (entries.foldlM (fun acc e =>
        if acc.quantity e.1 < e.2 then .error (Defect.underflow e.1)
        else .ok (acc.set e.1 (acc.quantity e.1 - e.2))) acc)
        fun t => ∀ k, t.quantity k = acc.quantity k - listed entries k from
    this s.entries r s.nodup_keys h
  intro entries
  induction entries with
  | nil => exact fun acc _ _ => .pure fun k => rfl
  | cons e rest ih =>
    intro acc hnodup hle
    rw [List.map_cons, List.nodup_cons] at hnodup
    have hrest : listed rest e.1 = 0 := listed_eq_zero hnodup.1
    have hfirst : e.2 ≤ acc.quantity e.1 := by simpa [listed_cons] using hle e.1
    rw [List.foldlM_cons, if_neg (Nat.not_lt.2 hfirst)]
    refine (ih (acc.set e.1 (acc.quantity e.1 - e.2)) hnodup.2 fun k => ?_).mono fun t ht k => ?_
    · by_cases hk : k = e.1
      · rw [hk, hrest]
        exact Nat.zero_le _
      · have := hle k
        rw [listed_cons, if_neg hk] at this
        rwa [quantity_set, if_neg hk]
    · rw [ht, quantity_set, listed_cons]
      by_cases hk : k = e.1
      · rw [if_pos hk, if_pos hk, hk, hrest, Nat.sub_zero]
      · rw [if_neg hk, if_neg hk]

theorem quantity_of_mem {q : Nat} (h : (k, q) ∈ r.entries) : r.quantity k = q := by
  rw [quantity, SortedMap.get?_eq_some_iff.2 h, Option.getD_some]

theorem mem_entries_of_quantity (h : r.quantity k ≠ 0) : (k, r.quantity k) ∈ r.entries := by
  unfold quantity at h ⊢
  cases hk : r.get? k with
  | none => exact absurd (by rw [hk]; rfl) h
  | some q => exact SortedMap.get?_eq_some_iff.1 hk

/-- It is enough to compare the quantities that are named. -/
theorem quantity_le_iff :
    (∀ k, r.quantity k ≤ s.quantity k) ↔ ∀ e ∈ r.entries, e.2 ≤ s.quantity e.1 := by
  constructor
  · rintro h ⟨k, q⟩ he
    exact quantity_of_mem he ▸ h k
  · intro h k
    by_cases hk : r.quantity k = 0
    · rw [hk]
      exact Nat.zero_le _
    · exact h _ (mem_entries_of_quantity hk)

/-- A demand fits a capacity if it has no more of anything. -/
theorem fitsWithin_iff : r.fitsWithin s ↔ ∀ k, r.quantity k ≤ s.quantity k := by
  unfold fitsWithin firstShortfall
  rw [Option.isNone_map, Option.isNone_iff_eq_none, List.find?_eq_none, quantity_le_iff]
  simp only [decide_eq_true_eq, Nat.not_lt]

theorem within_iff : r.within s ↔ r.keys = s.keys ∧ ∀ k, r.quantity k ≤ s.quantity k := by
  unfold within
  rw [Bool.and_eq_true, decide_eq_true_eq, List.all_eq_true, quantity_le_iff]
  simp only [decide_eq_true_eq]

theorem pairwise_keys (r : Resources) : r.keys.Pairwise (· < ·) := List.pairwise_map.2 r.ascending

/-- Vectors that name the same resources, in the same quantities, are the same. -/
theorem eq_of_quantity (hkeys : r.keys = s.keys) (h : ∀ k, r.quantity k = s.quantity k) :
    r = s := by
  have hentries : ∀ r : Resources, r.entries = r.keys.map fun k => (k, r.quantity k) := by
    intro r
    rw [SortedMap.keys, List.map_map]
    refine (List.map_id r.entries).symm.trans (List.map_congr_left fun e he => ?_)
    rw [Function.comp_apply, quantity_of_mem he, id]
  refine SortedMap.ext ?_
  rw [hentries r, hentries s, hkeys]
  exact List.map_congr_left fun k _ => by rw [h k]

end HexFabric.Resources
