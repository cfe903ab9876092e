import HexFabric.Table.Equivalence
import HexFabric.Proofs.Table.Lookup
import Mathlib

/-! Tables are equivalent exactly if they look up every key alike. A cube is split until the first
entries that matter there accept all of it, and then any one of its keys decides for the others. -/

namespace HexFabric

theorem lowestBit?_eq_none_iff {w : BitVec 32} :
    lowestBit? w = none ↔ ∀ i < 32, w.getLsbD i = false := by
  simp [lowestBit?, List.find?_eq_none]

namespace Pattern

variable {cube half p : Pattern} {i : Nat} {key : BitVec 32}

theorem Clean.accepts_key (h : cube.Clean) : cube.accepts cube.key := accepts_iff.2 h

theorem Clean.getLsbD_key (h : cube.Clean) (hbit : cube.mask.getLsbD i = false) :
    cube.key.getLsbD i = false := by
  cases hkey : cube.key.getLsbD i with
  | false => rfl
  | true => rw [h.getLsbD_mask hkey] at hbit; cases hbit

theorem clean_iff_getLsbD :
    p.Clean ↔ ∀ i < 32, p.key.getLsbD i = true → p.mask.getLsbD i = true := by
  refine ⟨fun h i _ => h.getLsbD_mask, fun h => ?_⟩
  refine BitVec.eq_of_getLsbD_eq fun i hi => ?_
  rw [BitVec.getLsbD_and]
  cases hkey : p.key.getLsbD i with
  | false => rfl
  | true => rw [h i hi hkey, Bool.and_true]

/-- A pattern that overlaps a cube and looks at no open bit of it accepts the whole cube. -/
theorem accepts_of_overlaps (hp : p.Clean) (hover : p.overlaps cube)
    (hopen : ∀ i < 32, (p.mask &&& ~~~cube.mask).getLsbD i = false) (hkey : cube.accepts key) :
    p.accepts key := by
  rw [overlaps_iff_getLsbD] at hover
  rw [accepts_iff_getLsbD] at hkey ⊢
  intro i hi
  cases hmask : p.mask.getLsbD i with
  | false => rw [hp.getLsbD_key hmask, Bool.and_false]
  | true =>
    have hcube : cube.mask.getLsbD i = true := by
      have := hopen i hi
      rw [BitVec.getLsbD_and, BitVec.getLsbD_not, hmask] at this
      simpa [hi] using this
    have hcommon := hkey i hi
    rw [hcube] at hcommon
    rw [hcommon, hover i hi hmask hcube]

/-! ### Halves -/

/-- `half` is the part of the cube in which the open bit `i` has the value `v`. -/
structure IsHalf (cube : Pattern) (i : Nat) (v : Bool) (half : Pattern) : Prop where
  lt : i < 32
  isOpen : cube.mask.getLsbD i = false
  mask : ∀ j < 32, half.mask.getLsbD j = if j = i then true else cube.mask.getLsbD j
  key : ∀ j < 32, half.key.getLsbD j = if j = i then v else cube.key.getLsbD j

theorem Clean.isHalf_lowerHalf (h : cube.Clean) (hi : i < 32) (hbit : cube.mask.getLsbD i = false) :
    cube.IsHalf i false (cube.lowerHalf i) := by
  refine ⟨hi, hbit, fun j hj => ?_, fun j hj => ?_⟩
  · rw [lowerHalf, BitVec.getLsbD_or, BitVec.getLsbD_twoPow]
    by_cases hji : j = i
    · simp [hji, hi]
    · simp [hji, Ne.symm hji]
  · by_cases hji : j = i
    · rw [if_pos hji, hji]
      exact h.getLsbD_key hbit
    · rw [if_neg hji, lowerHalf]

theorem isHalf_upperHalf (hi : i < 32) (hbit : cube.mask.getLsbD i = false) :
    cube.IsHalf i true (cube.upperHalf i) := by
  refine ⟨hi, hbit, fun j hj => ?_, fun j hj => ?_⟩
  all_goals
    rw [upperHalf, BitVec.getLsbD_or, BitVec.getLsbD_twoPow]
    by_cases hji : j = i
    · simp [hji, hi]
    · simp [hji, Ne.symm hji]

theorem IsHalf.clean {v : Bool} (h : cube.IsHalf i v half) (hcube : cube.Clean) : half.Clean := by
  rw [clean_iff_getLsbD] at hcube ⊢
  intro j hj hkey
  rw [h.mask j hj]
  rw [h.key j hj] at hkey
  by_cases hji : j = i
  · rw [if_pos hji]
  · rw [if_neg hji] at hkey ⊢
    exact hcube j hj hkey

/-- A half has those keys of the cube in which the bit has its value. -/
theorem IsHalf.accepts_iff {v : Bool} (h : cube.IsHalf i v half) (hcube : cube.Clean) :
    half.accepts key ↔ cube.accepts key ∧ key.getLsbD i = v := by
  simp only [accepts_iff_getLsbD]
  constructor
  · intro hkey
    refine ⟨fun j hj => ?_, ?_⟩
    · have := hkey j hj
      rw [h.mask j hj, h.key j hj] at this
      by_cases hji : j = i
      · rw [hji, h.isOpen, hcube.getLsbD_key h.isOpen, Bool.and_false]
      · rwa [if_neg hji, if_neg hji] at this
    · have := hkey i h.lt
      rwa [h.mask i h.lt, h.key i h.lt, if_pos rfl, if_pos rfl, Bool.and_true] at this
  · rintro ⟨hkey, hv⟩ j hj
    rw [h.mask j hj, h.key j hj]
    by_cases hji : j = i
    · rw [if_pos hji, if_pos hji, Bool.and_true, hji, hv]
    · rw [if_neg hji, if_neg hji, hkey j hj]

end Pattern

/-! ### Tables on a cube -/

section Cube

variable {cube : Pattern} {a b t : List Entry} {key : BitVec 32}

/-- The entries left out accept no key of the cube. -/
theorem lookup_relevant (hkey : cube.accepts key) : lookup (relevant cube t) key = lookup t key := by
  rw [lookup, lookup, relevant, List.find?_filter]
  congr 2
  funext e
  cases he : e.pattern.accepts key with
  | false => simp
  | true => simp [Pattern.overlaps_of_accepts he hkey]

/-- Where the first entry that matters has no open bit, it decides for all keys of the cube. -/
theorem lookup_relevant_of_closed (ht : ∀ e ∈ t, e.pattern.Clean)
    (hclosed : ∀ e ∈ (relevant cube t).head?, openBit? cube e = none) (hkey : cube.accepts key) :
    lookup t key = (relevant cube t).head?.map (·.route) := by
  rw [← lookup_relevant hkey]
  cases hr : relevant cube t with
  | nil => rfl
  | cons e rest =>
    have he : e ∈ t ∧ e.pattern.overlaps cube := by
      have : e ∈ relevant cube t := hr ▸ List.mem_cons_self
      simpa [relevant] using this
    have hnone := hclosed e (by rw [hr]; rfl)
    have haccepts : e.pattern.accepts key :=
      Pattern.accepts_of_overlaps (ht e he.1) he.2 (lowestBit?_eq_none_iff.1 hnone) hkey
    simp [lookup, haccepts]

/-- Tables agree on a cube exactly if they look up all its keys alike. -/
theorem agreeOn_iff (hcube : cube.Clean) (ha : ∀ e ∈ a, e.pattern.Clean)
    (hb : ∀ e ∈ b, e.pattern.Clean) :
    agreeOn cube a b ↔ ∀ key, cube.accepts key → lookup a key = lookup b key := by
  fun_induction agreeOn cube a b with
  | case1 cube a b ra rb h =>
    rw [splitBit?, List.findSome?_eq_none_iff] at h
    have hclosed : ∀ e, e ∈ ra.head? ∨ e ∈ rb.head? → openBit? cube e = none :=
      fun e he => h e (by simpa using he)
    have hlookup : ∀ key, cube.accepts key →
        lookup a key = ra.head?.map (·.route) ∧ lookup b key = rb.head?.map (·.route) :=
      fun key hkey => ⟨lookup_relevant_of_closed ha (fun e he => hclosed e (.inl he)) hkey,
        lookup_relevant_of_closed hb (fun e he => hclosed e (.inr he)) hkey⟩
    rw [decide_eq_true_iff]
    constructor
    · intro heq key hkey
      rw [(hlookup key hkey).1, (hlookup key hkey).2, heq]
    · intro hall
      obtain ⟨hla, hlb⟩ := hlookup cube.key hcube.accepts_key
      rw [← hla, ← hlb, hall cube.key hcube.accepts_key]
  | case2 cube a b ra rb i h ihLower ihUpper =>
    obtain ⟨hi, hbit⟩ := getLsbD_of_splitBit? h
    have hlower := hcube.isHalf_lowerHalf hi hbit
    have hupper := Pattern.isHalf_upperHalf hi hbit
    have hra : ∀ e ∈ ra, e.pattern.Clean := fun e he => ha e ((List.mem_filter.1 he).1)
    have hrb : ∀ e ∈ rb, e.pattern.Clean := fun e he => hb e ((List.mem_filter.1 he).1)
    rw [Bool.and_eq_true, ihLower (hlower.clean hcube) hra hrb,
      ihUpper (hupper.clean hcube) hra hrb]
    simp only [hlower.accepts_iff hcube, hupper.accepts_iff hcube]
    constructor
    · rintro ⟨hlow, hup⟩ key hkey
      rw [← lookup_relevant hkey, ← lookup_relevant (t := b) hkey]
      cases hv : key.getLsbD i with
      | false => exact hlow key ⟨hkey, hv⟩
      | true => exact hup key ⟨hkey, hv⟩
    · intro hall
      have hboth : ∀ key, cube.accepts key → lookup ra key = lookup rb key := by
        intro key hkey
        rw [lookup_relevant hkey, lookup_relevant hkey, hall key hkey]
      exact ⟨fun key hkey => hboth key hkey.1, fun key hkey => hboth key hkey.1⟩

end Cube

/-- Two tables are found to be equivalent exactly if they look up all keys alike, a key that one of
them leaves to the default included. -/
theorem tablesEquivalent_iff {a b : List Entry} (ha : ∀ e ∈ a, e.pattern.Clean)
    (hb : ∀ e ∈ b, e.pattern.Clean) :
    tablesEquivalent a b = true ↔ ∀ key, lookup a key = lookup b key := by
  have hcube : (⟨0, 0⟩ : Pattern).Clean := rfl
  have hall : ∀ key, (⟨0, 0⟩ : Pattern).accepts key := fun key => by simp [Pattern.accepts]
  rw [tablesEquivalent, agreeOn_iff hcube ha hb]
  exact forall_congr' fun key => forall_prop_of_true (hall key)

/-- Two entries with a default behind them, and the same with the two merged. -/
theorem tablesEquivalent_iff_merged :
    (∀ e ∈ [(⟨⟨0, 3⟩, ⟨4⟩⟩ : Entry), ⟨⟨1, 3⟩, ⟨4⟩⟩, ⟨⟨0, 0⟩, ⟨32⟩⟩], e.pattern.Clean) ∧
    (∀ e ∈ [(⟨⟨0, 2⟩, ⟨4⟩⟩ : Entry), ⟨⟨0, 0⟩, ⟨32⟩⟩], e.pattern.Clean) ∧
    tablesEquivalent [⟨⟨0, 3⟩, ⟨4⟩⟩, ⟨⟨1, 3⟩, ⟨4⟩⟩, ⟨⟨0, 0⟩, ⟨32⟩⟩]
      [⟨⟨0, 2⟩, ⟨4⟩⟩, ⟨⟨0, 0⟩, ⟨32⟩⟩] = true ∧
    ∀ key, lookup [⟨⟨0, 3⟩, ⟨4⟩⟩, ⟨⟨1, 3⟩, ⟨4⟩⟩, ⟨⟨0, 0⟩, ⟨32⟩⟩] key =
      lookup [⟨⟨0, 2⟩, ⟨4⟩⟩, ⟨⟨0, 0⟩, ⟨32⟩⟩] key := by
  have heq : tablesEquivalent [⟨⟨0, 3⟩, ⟨4⟩⟩, ⟨⟨1, 3⟩, ⟨4⟩⟩, ⟨⟨0, 0⟩, ⟨32⟩⟩]
      [⟨⟨0, 2⟩, ⟨4⟩⟩, ⟨⟨0, 0⟩, ⟨32⟩⟩] = true := by cbv
  exact ⟨by decide, by decide, heq, (tablesEquivalent_iff (by decide) (by decide)).1 heq⟩

/-- The order of entries that overlap matters. -/
example : tablesEquivalent [⟨⟨0, 3⟩, ⟨32⟩⟩, ⟨⟨0, 0⟩, ⟨4⟩⟩] [⟨⟨0, 0⟩, ⟨4⟩⟩, ⟨⟨0, 3⟩, ⟨32⟩⟩] = false := by
  cbv

end HexFabric
