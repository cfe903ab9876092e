import HexFabric.Proofs.Partition.Cut
import Mathlib

/-! How fair the shares of a vector are. The shares of consecutive ranges telescope, so those of any
cutting of the whole add up to the vector, with the resources that it names. A range has no more of
anything than one around it, and less than one unit more or less than its exact part. All of this
can be computed in words of 64 bits, with products of 128: `Resources.share_fair`. -/

namespace HexFabric

/-! ### Cut points -/

/-- Points that cut `extent` atoms into consecutive ranges, of which some may be empty. -/
structure Cutting (points : List Nat) (extent : Nat) : Prop where
  ascending : points.Pairwise (· ≤ ·)
  first : points.head? = some 0
  last : points.getLast? = some extent

/-- The ranges between neighbouring points. -/
def between (points : List Nat) : List (Nat × Nat) := points.zip points.tail

theorem consecutive_between {a b : Nat} {points : List Nat}
    (h : (a :: points).getLast? = some b) : Consecutive a (between (a :: points)) b := by
  induction points generalizing a with
  | nil => simpa [between, Consecutive] using h
  | cons p rest ih =>
    rw [List.getLast?_cons_cons] at h
    exact ⟨rfl, ih h⟩

theorem le_of_mem_between {points : List Nat} (h : points.Pairwise (· ≤ ·)) :
    ∀ r ∈ between points, r.1 ≤ r.2 := by
  induction points with
  | nil => exact fun r hr => nomatch hr
  | cons a points ih =>
    obtain ⟨ha, hpoints⟩ := List.pairwise_cons.1 h
    cases points with
    | nil => exact fun r hr => nomatch hr
    | cons p rest => exact List.forall_mem_cons.2 ⟨ha p List.mem_cons_self, ih hpoints⟩

namespace Cutting

variable {points : List Nat} {extent : Nat}

theorem consecutive (h : Cutting points extent) : Consecutive 0 (between points) extent := by
  obtain ⟨rest, rfl⟩ := List.head?_eq_some_iff.1 h.first
  exact consecutive_between h.last

theorem le (h : Cutting points extent) : ∀ r ∈ between points, r.1 ≤ r.2 :=
  le_of_mem_between h.ascending

/-- Where there are atoms there is a range. -/
theorem between_ne_nil (h : Cutting points extent) (hextent : extent ≠ 0) :
    between points ≠ [] := by
  intro hnil
  have hconsecutive := h.consecutive
  rw [hnil] at hconsecutive
  exact hextent (show 0 = extent from hconsecutive).symm

end Cutting

namespace Resources

/-! ### Totals -/

/-- The sum of some vectors. -/
def total (l : List Resources) : Resources := l.foldl add none

theorem quantity_total (l : List Resources) (k : Resource) :
    (total l).quantity k = (l.map (·.quantity k)).sum := by
  suffices ∀ acc : Resources, (l.foldl add acc).quantity k =
      acc.quantity k + (l.map (·.quantity k)).sum by
    rw [total, this, quantity_none, Nat.zero_add]
  induction l with
  | nil => exact fun _ => rfl
  | cons s rest ih =>
    intro acc
    rw [List.foldl_cons, ih, quantity_add, List.map_cons, List.sum_cons, Nat.add_assoc]

theorem mem_keys_total {l : List Resources} {k : Resource} :
    k ∈ (total l).keys ↔ ∃ s ∈ l, k ∈ s.keys := by
  suffices ∀ acc : Resources, k ∈ (l.foldl add acc).keys ↔ k ∈ acc.keys ∨ ∃ s ∈ l, k ∈ s.keys by
    rw [total, this]
    exact or_iff_right List.not_mem_nil
  induction l with
  | nil => simp
  | cons s rest ih =>
    intro acc
    rw [List.foldl_cons, ih, mem_keys_add, List.exists_mem_cons_iff, or_assoc]

/-- Vectors that name what `r` names add up to it if their quantities do. -/
theorem total_eq {r : Resources} {l : List Resources} (hl : l ≠ [])
    (hkeys : ∀ s ∈ l, s.keys = r.keys)
    (hsum : ∀ k, (l.map (·.quantity k)).sum = r.quantity k) : total l = r := by
  refine eq_of_quantity (Ascending.eq_of_mem_iff (pairwise_keys _) (pairwise_keys _) fun k => ?_)
    fun k => by rw [quantity_total, hsum]
  rw [mem_keys_total]
  constructor
  · rintro ⟨s, hs, hk⟩
    exact hkeys s hs ▸ hk
  · intro hk
    obtain ⟨s, hs⟩ := List.exists_mem_of_ne_nil l hl
    exact ⟨s, hs, (hkeys s hs).symm ▸ hk⟩

/-- The shares of the ranges of a cutting add up to the whole. -/
theorem total_share {points : List Nat} {extent : Nat} (h : Cutting points extent)
    (hextent : extent ≠ 0) (r : Resources) :
    total ((between points).map fun c => r.share c.1 c.2 extent) = r := by
  refine total_eq (fun hnil => h.between_ne_nil hextent (List.map_eq_nil_iff.1 hnil)) ?_ ?_
  · intro s hs
    obtain ⟨c, _, rfl⟩ := List.mem_map.1 hs
    exact SortedMap.keys_mapValues _ r
  · intro k
    rw [List.map_map, ← r.quantity_share_whole hextent k]
    exact h.consecutive.sum_share h.le r extent k

/-! ### Rounding -/

/-- The difference of two rounded quotients is less than one from that of the exact ones. -/
theorem abs_floor_sub_floor_lt_one (x y : ℚ) : |((⌊x⌋ : ℚ) - ⌊y⌋) - (x - y)| < 1 := by
  have hx := Int.floor_le x
  have hx' := Int.lt_floor_add_one x
  have hy := Int.floor_le y
  have hy' := Int.lt_floor_add_one y
  rw [abs_lt]
  constructor <;> linarith

/-- A share is less than one unit from the exact part of the quantity. -/
theorem abs_quantity_share_sub_lt_one (r : Resources) {lo hi : Nat} (hlo : lo ≤ hi)
    (extent : Nat) (k : Resource) :
    |((r.share lo hi extent).quantity k : ℚ) - r.quantity k * (hi - lo) / extent| < 1 := by
  have hle := part_mono (r.quantity k) extent hlo
  have hfloor : ∀ n : Nat, ((r.quantity k * n / extent : ℕ) : ℚ) =
      ⌊(r.quantity k * n / extent : ℚ)⌋ := by
    intro n
    rw [← Nat.cast_mul, Rat.floor_natCast_div_natCast]
    rfl
  rw [quantity_share, Nat.cast_sub hle, hfloor, hfloor, mul_sub, sub_div]
  exact abs_floor_sub_floor_lt_one _ _

/-! ### Words -/

/-- A number that fits a word of `width` bits. -/
def word? (width n : Nat) : Option Nat := if n < 2 ^ width then some n else .none

/-- What `n` of `extent` atoms have of a quantity, by way of a product of two words. -/
def wordPart? (q n extent : Nat) : Option Nat := do
  let product ← word? 128 (q * n)
  word? 64 (product / extent)

/-- What the atoms from `lo` to `hi` have of a quantity. -/
def wordShare? (q lo hi extent : Nat) : Option Nat := do
  let upper ← wordPart? q hi extent
  let lower ← wordPart? q lo extent
  if lower ≤ upper then some (upper - lower) else .none

/-- A sum of which each running total fits a word. -/
def wordSum? (qs : List Nat) : Option Nat := qs.foldlM (fun total q => word? 64 (total + q)) 0

theorem word?_of_lt {width n : Nat} (h : n < 2 ^ width) : word? width n = some n := if_pos h

/-- Running totals grow, so a sum can be computed in words if it fits one. -/
theorem wordSum?_of_lt {qs : List Nat} (h : qs.sum < 2 ^ 64) : wordSum? qs = some qs.sum := by
  suffices ∀ acc, acc + qs.sum < 2 ^ 64 →
      qs.foldlM (fun total q => word? 64 (total + q)) acc = some (acc + qs.sum) by
    simpa [wordSum?] using this 0 (by omega)
  induction qs with
  | nil => exact fun _ _ => rfl
  | cons q rest ih =>
    intro acc hacc
    rw [List.sum_cons, ← Nat.add_assoc] at hacc ⊢
    rw [List.foldlM_cons, word?_of_lt (by omega)]
    exact ih (by omega) _ hacc

section Part

variable {q n extent : Nat}

theorem part_le (h : n ≤ extent) : q * n / extent ≤ q :=
  Nat.div_le_of_le_mul (Nat.mul_comm extent q ▸ Nat.mul_le_mul_left q h)

theorem wordPart?_eq (hq : q < 2 ^ 64) (hextent : extent < 2 ^ 64) (h : n ≤ extent) :
    wordPart? q n extent = some (q * n / extent) := by
  have hproduct : q * n < 2 ^ 64 * 2 ^ 64 := Nat.mul_lt_mul'' hq (Nat.lt_of_le_of_lt h hextent)
  rw [← Nat.pow_add] at hproduct
  have hquotient : q * n / extent < 2 ^ 64 := Nat.lt_of_le_of_lt (part_le h) hq
  rw [wordPart?, word?_of_lt hproduct, Option.bind_eq_bind, Option.bind_some,
    word?_of_lt hquotient]

end Part

/-- A share can be computed in words if the quantity and the extent are words. -/
theorem wordShare?_eq {r : Resources} {k : Resource} {lo hi extent : Nat} (hlo : lo ≤ hi)
    (hhi : hi ≤ extent) (hq : r.quantity k < 2 ^ 64) (hextent : extent < 2 ^ 64) :
    wordShare? (r.quantity k) lo hi extent = some ((r.share lo hi extent).quantity k) := by
  rw [wordShare?, wordPart?_eq hq hextent hhi, wordPart?_eq hq hextent (hlo.trans hhi),
    quantity_share]
  exact if_pos (part_mono _ _ hlo)

/-! ### The shares of a whole -/

/-- For any cutting of a whole that has atoms, the shares of the ranges are defined and add up to
the vector shared out. The share of any range is at most that of a range around it, resource by
resource, and less than one unit from the exact part. Computed with words of 64 bits and products of
128, shares and running totals are the same. -/
theorem share_fair (r : Resources) {extent : Nat} (hextent : 0 < extent) :
    (∀ points, Cutting points extent →
      Returns ((between points).mapM fun c => r.share? c.1 c.2 extent) fun shares =>
        total shares = r ∧
          ((∀ k, r.quantity k < 2 ^ 64) →
            ∀ k, wordSum? (shares.map (·.quantity k)) = some (r.quantity k))) ∧
    ∀ lo hi, lo ≤ hi → hi ≤ extent → Returns (r.share? lo hi extent) fun s =>
      (∀ k, |(s.quantity k : ℚ) - r.quantity k * (hi - lo) / extent| < 1) ∧
      (extent < 2 ^ 64 → ∀ k, r.quantity k < 2 ^ 64 →
        wordShare? (r.quantity k) lo hi extent = some (s.quantity k)) ∧
      ∀ lo' hi', lo' ≤ lo → hi ≤ hi' → hi' ≤ extent →
        Returns (r.share? lo' hi' extent) fun s' => ∀ k, s.quantity k ≤ s'.quantity k := by
  have hne : extent ≠ 0 := Nat.pos_iff_ne_zero.1 hextent
  refine ⟨fun points hpoints => ?_, fun lo hi hlo hhi => ?_⟩
  · have hshares : (between points).mapM (fun c => r.share? c.1 c.2 extent) =
        .ok ((between points).map fun c => r.share c.1 c.2 extent) := by
      refine mapM_eq_ok.2 (List.forall₂_map_right_iff.2 (List.forall₂_same.2 fun c hc => ?_))
      have hbounds := hpoints.consecutive.bounds hpoints.le hc
      exact r.share?_eq (hpoints.le c hc) hbounds.2 hne
    rw [hshares]
    refine .ok ⟨total_share hpoints hne r, fun hwords k => ?_⟩
    have hsum := quantity_total ((between points).map fun c => r.share c.1 c.2 extent) k
    rw [total_share hpoints hne r] at hsum
    rw [hsum]
    exact wordSum?_of_lt (hsum ▸ hwords k)
  · refine (r.returns_share? hlo hhi hne).mono fun s hs => ?_
    subst hs
    refine ⟨fun k => r.abs_quantity_share_sub_lt_one hlo extent k,
      fun hword k hq => wordShare?_eq hlo hhi hq hword, fun lo' hi' hlo' hhi' hle => ?_⟩
    refine (r.returns_share? (hlo'.trans (hlo.trans hhi')) hle hne).mono fun s' hs' k => ?_
    rw [hs']
    exact r.quantity_share_mono hlo' hhi' extent k

/-- A few cores, and as much memory as a word can say. -/
def bulk : Resources := (none.set .cores 7).set .sdram (2 ^ 64 - 1)

theorem share_fair_thirteenths : 0 < 13 ∧ Cutting [0, 3, 4, 9, 13] 13 ∧
    Returns ((between [0, 3, 4, 9, 13]).mapM fun c => bulk.share? c.1 c.2 13) (fun shares =>
      total shares = bulk ∧ ∀ k, wordSum? (shares.map (·.quantity k)) = some (bulk.quantity k)) ∧
    Returns (bulk.share? 4 9 13) fun s =>
      |(s.quantity .cores : ℚ) - 7 * (9 - 4) / 13| < 1 ∧
      wordShare? (2 ^ 64 - 1) 4 9 13 = some (s.quantity .sdram) ∧
      Returns (bulk.share? 3 13 13) fun s' => ∀ k, s.quantity k ≤ s'.quantity k := by
  have hpositive : 0 < 13 := by decide
  have hcutting : Cutting [0, 3, 4, 9, 13] 13 := ⟨by decide, rfl, rfl⟩
  have hwords : ∀ k, bulk.quantity k < 2 ^ 64 := by
    intro k
    rw [bulk, quantity_set, quantity_set, quantity_none]
    split_ifs <;> decide
  obtain ⟨hsum, hfair⟩ := share_fair bulk hpositive
  refine ⟨hpositive, hcutting, (hsum _ hcutting).mono fun shares h => ⟨h.1, h.2 hwords⟩, ?_⟩
  refine (hfair 4 9 (by decide) (by decide)).mono fun s hs => ?_
  obtain ⟨hclose, hword, hnested⟩ := hs
  have hcores : bulk.quantity .cores = 7 := rfl
  have hsdram : bulk.quantity .sdram = 2 ^ 64 - 1 := rfl
  refine ⟨?_, hsdram ▸ hword (by decide) .sdram (hwords .sdram),
    hnested 3 13 (by decide) (by decide) (by decide)⟩
  simpa [hcores] using hclose .cores

end Resources

end HexFabric
