import HexFabric.Proofs.Binary64
import HexFabric.Proofs.Resources.Shortfall

/-! What is compared when a demand is found to come closer to one capacity than to another. The strain
on a capacity is the greatest of the ratios of single resources, `Resources.strain_greatest`, and a
ratio stands for the quotient of two numbers, `Ratio.toFloat_of`. As long as all quantities are words,
strains are compared as these numbers are: `Resources.foremost_iff_toFloat`. -/

namespace HexFabric

namespace Ratio

variable {a b : Ratio} {q c : Nat}

def toFloat (r : Ratio) : Float := Float.ofBits r.bits

/-- `r` is a number that is not negative, or infinite. -/
def IsNumber (r : Ratio) : Prop := r.bits.toNat ≤ Binary64.top

theorem toFloat_lt_iff (ha : a.IsNumber) (hb : b.IsNumber) : a.toFloat < b.toFloat ↔ a < b :=
  Binary64.ofBits_lt_iff ha hb

theorem toUInt64_ne_zero {n : Nat} (hn : n ≠ 0) (hword : n < 2 ^ 64) : n.toUInt64 ≠ 0 := by
  intro h
  have hmod : n % 2 ^ 64 = 0 := congrArg UInt64.toNat h
  omega

/-- A ratio stands for the quotient, also where that is infinite. -/
theorem toFloat_of (hq : q ≠ 0) (hword : q < 2 ^ 64) (c : Nat) :
    (of q c).toFloat = q.toUInt64.toFloat / c.toUInt64.toFloat := by
  unfold toFloat of
  split_ifs with hc
  · rw [hc]
    exact (Binary64.toFloat_div_zero (toUInt64_ne_zero hq hword)).symm
  · exact Float.ofBits_toBits _

theorem isNumber_of (hq : q ≠ 0) (hqword : q < 2 ^ 64) (hcword : c < 2 ^ 64) :
    (of q c).IsNumber := by
  unfold IsNumber of
  split_ifs with hc
  · decide
  · exact Binary64.toBits_div_le (toUInt64_ne_zero hq hqword) (toUInt64_ne_zero hc hcword)

end Ratio

namespace Resources

variable {demand capacity c d : Resources} {capacities : List Resources}

/-- Every quantity is a word. -/
def InWords (r : Resources) : Prop := ∀ k, r.quantity k < 2 ^ 64

/-- What is kept of the ratios of some entries: nothing if nothing is demanded, else the greatest, with
its resource. -/
inductive Greatest (capacity : Resources) (entries : List (Resource × Nat)) :
    Option Resource × Ratio → Prop
  | nothing (zero : ∀ e ∈ entries, e.2 = 0) : Greatest capacity entries (.none, .zero)
  | reached {k : Resource} {q : Nat} (mem : (k, q) ∈ entries) (demanded : q ≠ 0)
      (greatest : ∀ e ∈ entries, e.2 ≠ 0 →
        ¬Ratio.of q (capacity.quantity k) < Ratio.of e.2 (capacity.quantity e.1)) :
      Greatest capacity entries (some k, Ratio.of q (capacity.quantity k))

/-- What is kept after one more entry. -/
def greater (capacity : Resources) (worst : Option Resource × Ratio) (e : Resource × Nat) :
    Option Resource × Ratio :=
  if e.2 = 0 then worst
  else if worst.1.isNone ∨ worst.2 < Ratio.of e.2 (capacity.quantity e.1) then
    (some e.1, Ratio.of e.2 (capacity.quantity e.1))
  else worst

theorem Greatest.greater {entries : List (Resource × Nat)} {worst : Option Resource × Ratio}
    (h : Greatest capacity entries worst) (e : Resource × Nat) :
    Greatest capacity (entries ++ [e]) (greater capacity worst e) := by
  obtain ⟨j, p⟩ := e
  have hlast : (j, p) ∈ entries ++ [(j, p)] := List.mem_append_right _ List.mem_cons_self
  unfold Resources.greater
  by_cases hp : p = 0
  · rw [if_pos hp]
    cases h with
    | nothing zero =>
      exact .nothing (List.forall_mem_append.2 ⟨zero, List.forall_mem_singleton.2 hp⟩)
    | reached mem demanded greatest =>
      exact .reached (List.mem_append_left _ mem) demanded
        (List.forall_mem_append.2 ⟨greatest, List.forall_mem_singleton.2 fun hne => absurd hp hne⟩)
  rw [if_neg hp]
  cases h with
  | nothing zero =>
    rw [if_pos (.inl rfl)]
    refine .reached hlast hp (List.forall_mem_append.2 ⟨fun e he hne => absurd (zero e he) hne, ?_⟩)
    exact List.forall_mem_singleton.2 fun _ => StrictLinear.irrefl _
  | reached mem demanded greatest =>
    split_ifs with hless
    · have hless := hless.resolve_left Bool.false_ne_true
      refine .reached hlast hp (List.forall_mem_append.2 ⟨fun e he hne hlt => ?_, ?_⟩)
      · exact greatest e he hne (StrictLinear.trans hless hlt)
      · exact List.forall_mem_singleton.2 fun _ => StrictLinear.irrefl _
    · exact .reached (List.mem_append_left _ mem) demanded
        (List.forall_mem_append.2 ⟨greatest, List.forall_mem_singleton.2 fun _ hlt => hless (.inr hlt)⟩)

theorem greatest_worstRatio (demand capacity : Resources) :
    Greatest capacity demand.entries (demand.worstRatio capacity) := by
  suffices ∀ (rest seen : List (Resource × Nat)) (worst : Option Resource × Ratio),
      Greatest capacity seen worst →
      Greatest capacity (seen ++ rest) (rest.foldl (greater capacity) worst) from
    this demand.entries [] (.none, .zero) (.nothing (List.forall_mem_nil _))
  intro rest
  induction rest with
  | nil =>
    intro seen worst h
    rwa [List.append_nil]
  | cons e rest ih =>
    intro seen worst h
    rw [List.append_cons]
    exact ih _ _ (h.greater e)

/-- Where anything is demanded, the strain is the greatest of the ratios. -/
theorem strain_greatest (h : ∃ k, demand.quantity k ≠ 0) :
    (∃ k, demand.quantity k ≠ 0 ∧
      demand.strain capacity = Ratio.of (demand.quantity k) (capacity.quantity k)) ∧
    ∀ k, demand.quantity k ≠ 0 →
      ¬demand.strain capacity < Ratio.of (demand.quantity k) (capacity.quantity k) := by
  have hworst := greatest_worstRatio demand capacity
  unfold strain
  generalize demand.worstRatio capacity = worst at hworst ⊢
  cases hworst with
  | nothing zero =>
    obtain ⟨k, hk⟩ := h
    exact absurd (zero _ (mem_entries_of_quantity hk)) hk
  | @reached k q mem demanded greatest =>
    obtain rfl := quantity_of_mem mem
    exact ⟨⟨k, demanded, rfl⟩, fun j hj => greatest _ (mem_entries_of_quantity hj) hj⟩

theorem strain_eq_zero (h : ∀ k, demand.quantity k = 0) : demand.strain capacity = .zero := by
  have hworst := greatest_worstRatio demand capacity
  unfold strain
  generalize demand.worstRatio capacity = worst at hworst ⊢
  cases hworst with
  | nothing zero => rfl
  | @reached k q mem demanded greatest =>
    obtain rfl := quantity_of_mem mem
    exact absurd (h k) demanded

theorem isNumber_strain (hdemand : demand.InWords) (hcapacity : capacity.InWords) :
    (demand.strain capacity).IsNumber := by
  by_cases h : ∃ k, demand.quantity k ≠ 0
  · obtain ⟨k, hk, hstrain⟩ := (strain_greatest h).1
    rw [hstrain]
    exact Ratio.isNumber_of hk (hdemand k) (hcapacity k)
  · rw [strain_eq_zero (by simpa using h)]
    exact Nat.zero_le _

/-- As long as all quantities are words, the foremost capacity is that with the least of the numbers
for which ratios stand, the earliest of several. -/
theorem foremost_iff_toFloat (hdemand : demand.InWords) (hcapacities : ∀ c ∈ capacities, c.InWords) :
    Foremost demand capacities c ↔ ∃ before after, capacities = before ++ c :: after ∧
      (∀ d ∈ before, (demand.strain c).toFloat < (demand.strain d).toFloat) ∧
      ∀ d ∈ after, ¬(demand.strain d).toFloat < (demand.strain c).toFloat := by
  have hlt : ∀ c ∈ capacities, ∀ d ∈ capacities,
      ((demand.strain c).toFloat < (demand.strain d).toFloat ↔ demand.strain c < demand.strain d) :=
    fun c hc d hd => Ratio.toFloat_lt_iff (isNumber_strain hdemand (hcapacities c hc))
      (isNumber_strain hdemand (hcapacities d hd))
  refine exists_congr fun before => exists_congr fun after => and_congr_right ?_
  rintro rfl
  have hc : c ∈ before ++ c :: after := List.mem_append_cons_self
  refine and_congr (forall₂_congr fun d hd => ?_) (forall₂_congr fun d hd => not_congr ?_)
  · exact (hlt c hc d (List.mem_append_left _ hd)).symm
  · exact (hlt d (List.mem_append_right _ (List.mem_cons_of_mem _ hd)) c hc).symm

end Resources

end HexFabric
