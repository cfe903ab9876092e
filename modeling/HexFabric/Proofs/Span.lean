import HexFabric.Proofs.Containers
import HexFabric.Span
import Mathlib

/-! Smallest covering arcs. An arc that covers all coordinates on a ring leaves out a gap between one of
them and the next, or that from the last one round to the first, and for each of these gaps there is an
arc that leaves out this gap only. So some arc of `s` steps covers them exactly if some gap is wide
enough, `Span.cover_le_iff`, and the widest gap leaves the smallest arc: `Span.cover_smallest`. -/

namespace HexFabric.Span

variable {coords cs : List Nat} {a b c gap lo hi m n p q s : Nat}

/-! ### Gaps -/

/-- `b` is the coordinate that follows `a`. -/
structure Follows (cs : List Nat) (a b : Nat) : Prop where
  left : a ∈ cs
  right : b ∈ cs
  lt : a < b
  apart : ∀ c ∈ cs, c ≤ a ∨ b ≤ c

theorem not_follows_nil : ¬Follows [] a b := fun h => by simpa using h.left

theorem not_follows_singleton : ¬Follows [c] a b := fun h => by
  have ha := List.mem_singleton.1 h.left
  have hb := List.mem_singleton.1 h.right
  have := h.lt
  omega

theorem follows_cons_cons (h : (p :: q :: cs).Pairwise (· < ·)) :
    Follows (p :: q :: cs) a b ↔ a = p ∧ b = q ∨ Follows (q :: cs) a b := by
  obtain ⟨hp, hq⟩ := List.pairwise_cons.1 h
  have hleast : ∀ c ∈ q :: cs, q ≤ c := fun c hc => (hq.imp Nat.le_of_lt).rel_head hc
  have hpq : p < q := hp q List.mem_cons_self
  constructor
  · intro hab
    have hlt := hab.lt
    have hright : b ∈ q :: cs := (List.mem_cons.1 hab.right).resolve_left fun hb => by
      rcases List.mem_cons.1 hab.left with ha | ha
      · omega
      · have := hp a ha
        omega
    rcases List.mem_cons.1 hab.left with rfl | ha
    · have := hleast b hright
      have := hab.apart q (List.mem_cons_of_mem _ List.mem_cons_self)
      exact .inl ⟨rfl, by omega⟩
    · exact .inr ⟨ha, hright, hlt, fun c hc => hab.apart c (List.mem_cons_of_mem p hc)⟩
  · rintro (⟨rfl, rfl⟩ | hab)
    · refine ⟨List.mem_cons_self, List.mem_cons_of_mem _ List.mem_cons_self, hpq, fun c hc => ?_⟩
      rcases List.mem_cons.1 hc with rfl | hc
      · exact .inl (Nat.le_refl c)
      · exact .inr (hleast c hc)
    · refine ⟨List.mem_cons_of_mem p hab.left, List.mem_cons_of_mem p hab.right, hab.lt,
        fun c hc => ?_⟩
      rcases List.mem_cons.1 hc with rfl | hc
      · exact .inl (Nat.le_of_lt (hp a hab.left))
      · exact hab.apart c hc

theorem le_widestGap_iff (h : cs.Pairwise (· < ·)) :
    m ≤ widestGap gap cs ↔ m ≤ gap ∨ ∃ a b, Follows cs a b ∧ m ≤ b - a := by
  fun_induction widestGap gap cs with
  | case1 gap p q rest ih =>
    have hgaps : (∃ a b, Follows (p :: q :: rest) a b ∧ m ≤ b - a) ↔
        m ≤ q - p ∨ ∃ a b, Follows (q :: rest) a b ∧ m ≤ b - a := by
      simp only [follows_cons_cons h, or_and_right, exists_or]
      simp
    rw [ih (List.pairwise_cons.1 h).2, le_max_iff, hgaps, or_assoc]
  | case2 cs gap hshort =>
    have hnone : ¬∃ a b, Follows cs a b ∧ m ≤ b - a := by
      rintro ⟨a, b, hab, -⟩
      match cs with
      | [] => exact not_follows_nil hab
      | [c] => exact not_follows_singleton hab
      | p :: q :: rest => exact hshort p q rest rfl
    rw [or_iff_left hnone]

/-- Between coordinates on both sides of `q` there is a gap that `q` is in. -/
theorem exists_follows (h : cs.Pairwise (· < ·)) (ha : a ∈ cs) (haq : a < q) (hb : b ∈ cs)
    (hqb : q ≤ b) : ∃ a b, Follows cs a b ∧ a < q ∧ q ≤ b := by
  induction cs generalizing a with
  | nil => simp at ha
  | cons p rest ih =>
    obtain ⟨hp, hrest⟩ := List.pairwise_cons.1 h
    have hpq : p < q := by
      rcases List.mem_cons.1 ha with rfl | ha
      · exact haq
      · exact Nat.lt_trans (hp a ha) haq
    have hb : b ∈ rest := (List.mem_cons.1 hb).resolve_left (by omega)
    match rest with
    | c :: rest =>
      by_cases hcq : c < q
      · obtain ⟨u, v, huv, hsides⟩ := ih hrest List.mem_cons_self hcq hb
        exact ⟨u, v, (follows_cons_cons h).2 (.inr huv), hsides⟩
      · exact ⟨p, c, (follows_cons_cons h).2 (.inl ⟨rfl, rfl⟩), hpq, Nat.le_of_not_lt hcq⟩

/-! ### Arcs -/

/-- From `p` on, at most `s` steps up a ring of length `n` lead to every coordinate. -/
def Covers (n p s : Nat) (coords : List Nat) : Prop := ∀ c ∈ coords, ∃ i ≤ s, c = (p + i) % n

theorem covers_mod : Covers n (p % n) s coords ↔ Covers n p s coords := by
  unfold Covers
  simp only [Nat.mod_add_mod]

theorem covers_of_steps (hn : ∀ c ∈ coords, c < n)
    (h : ∀ c ∈ coords, p ≤ c ∧ c ≤ p + s ∨ p ≤ c + n ∧ c + n ≤ p + s) : Covers n p s coords := by
  intro c hc
  rcases h c hc with ⟨hpc, hs⟩ | ⟨hpc, hs⟩
  · exact ⟨c - p, by omega, by rw [Nat.add_sub_cancel' hpc, Nat.mod_eq_of_lt (hn c hc)]⟩
  · exact ⟨c + n - p, by omega, by
      rw [Nat.add_sub_cancel' hpc, Nat.add_mod_right, Nat.mod_eq_of_lt (hn c hc)]⟩

/-- An arc that does not go all the way round reaches a coordinate before the end of the ring or
after it. -/
theorem Covers.steps (h : Covers n p s coords) (hp : p < n) (hs : s < n) (hc : c ∈ coords) :
    p ≤ c ∧ c ≤ p + s ∨ c < p ∧ c + n ≤ p + s := by
  obtain ⟨i, hi, rfl⟩ := h c hc
  by_cases hround : p + i < n
  · rw [Nat.mod_eq_of_lt hround]
    omega
  · rw [Nat.mod_eq_sub_mod (by omega), Nat.mod_eq_of_lt (by omega)]
    omega

/-- An arc leaves out one of the gaps. -/
theorem Covers.exists_gap (hcs : cs.Pairwise (· < ·)) (hlo : lo ∈ cs) (hhi : hi ∈ cs)
    (hle : lo ≤ hi) (hn : ∀ c ∈ cs, c < n) (h : Covers n p s cs) :
    n - s ≤ n + lo - hi ∨ ∃ a b, Follows cs a b ∧ n - s ≤ b - a := by
  have hlt := hn lo hlo
  rcases Nat.lt_or_ge s n with hs | hs
  · have hq : p % n < n := Nat.mod_lt p (by omega)
    have hsteps : ∀ c ∈ cs, p % n ≤ c ∧ c ≤ p % n + s ∨ c < p % n ∧ c + n ≤ p % n + s :=
      fun c => (covers_mod.2 h).steps hq hs
    have hlow := hsteps lo hlo
    have hhigh := hsteps hi hhi
    by_cases hsplit : lo < p % n ∧ p % n ≤ hi
    · obtain ⟨a, b, hab, ha, hb⟩ := exists_follows hcs hlo hsplit.1 hhi hsplit.2
      have hleft := hsteps a hab.left
      exact .inr ⟨a, b, hab, by omega⟩
    · -- all coordinates are on one side of the start, so the gap is the one past the end
      exact .inl (by omega)
  · exact .inl (by omega)

/-- Each gap is left out by an arc. -/
theorem exists_covers (hhi : hi ∈ cs) (hbounds : ∀ c ∈ cs, lo ≤ c ∧ c ≤ hi)
    (hn : ∀ c ∈ cs, c < n)
    (h : n - s ≤ n + lo - hi ∨ ∃ a b, Follows cs a b ∧ n - s ≤ b - a) :
    ∃ p, Covers n p s cs := by
  have hlt := hn hi hhi
  rcases h with h | ⟨a, b, hab, h⟩
  · refine ⟨lo, covers_of_steps hn fun c hc => .inl ?_⟩
    have := hbounds c hc
    omega
  · refine ⟨b, covers_of_steps hn fun c hc => ?_⟩
    have := hab.lt
    have := hn b hab.right
    have := hn c hc
    rcases hab.apart c hc with hca | hbc
    · exact .inr (by omega)
    · exact .inl (by omega)

/-! ### The smallest arc -/

theorem mem_occupied : c ∈ occupied coords ↔ c ∈ coords := Ascending.mem_ofList

theorem pairwise_occupied (coords : List Nat) : (occupied coords).Pairwise (· < ·) :=
  Ascending.pairwise_ofList coords

theorem occupied_congr {coords' : List Nat} (h : ∀ c, c ∈ coords ↔ c ∈ coords') :
    occupied coords = occupied coords' :=
  Ascending.eq_of_mem_iff (pairwise_occupied coords) (pairwise_occupied coords') fun c => by
    rw [mem_occupied, mem_occupied, h c]

theorem cover_congr {coords' : List Nat} (h : ∀ c, c ∈ coords ↔ c ∈ coords') (ring : Option Nat) :
    cover coords ring = cover coords' ring := by
  rw [cover, cover, occupied_congr h]

/-- The least and the greatest coordinate. -/
structure Ends (coords : List Nat) (lo hi : Nat) : Prop where
  least : IsLeast {c | c ∈ coords} lo
  greatest : IsGreatest {c | c ∈ coords} hi

theorem exists_ends (hne : coords ≠ []) :
    ∃ lo rest, occupied coords = lo :: rest ∧ Ends coords lo ((lo :: rest).getLastD lo) := by
  have hle : (occupied coords).Pairwise (· ≤ ·) := (pairwise_occupied coords).imp Nat.le_of_lt
  cases hcs : occupied coords with
  | nil =>
    obtain ⟨c, hc⟩ := List.exists_mem_of_ne_nil coords hne
    exact absurd (mem_occupied.2 hc) (by simp [hcs])
  | cons lo rest =>
    have hmem : ∀ c, c ∈ lo :: rest ↔ c ∈ coords := fun c => hcs ▸ mem_occupied
    rw [hcs] at hle
    refine ⟨lo, rest, rfl, ⟨(hmem lo).1 List.mem_cons_self, fun c hc => ?_⟩, ?_, fun c hc => ?_⟩
    · exact hle.rel_head ((hmem c).2 hc)
    · exact (hmem _).1 (List.getLast_mem (List.cons_ne_nil lo rest))
    · exact hle.rel_getLast ((hmem c).2 hc)

theorem cover_le_iff (hne : coords ≠ []) (hn : ∀ c ∈ coords, c < n) :
    cover coords (some n) ≤ s ↔ ∃ p, Covers n p s coords := by
  obtain ⟨lo, rest, hcs, hends⟩ := exists_ends hne
  have hlo := mem_occupied.2 hends.least.1
  have hhi := mem_occupied.2 hends.greatest.1
  have hn' : ∀ c ∈ occupied coords, c < n := fun c hc => hn c (mem_occupied.1 hc)
  have hcovers : (∃ p, Covers n p s coords) ↔ ∃ p, Covers n p s (occupied coords) := by
    unfold Covers
    simp only [mem_occupied]
  have hcover : cover coords (some n) =
      n - widestGap (n + lo - (lo :: rest).getLastD lo) (occupied coords) := by
    rw [cover, hcs]
  rw [hcover, Nat.sub_le_iff_le_add, ← Nat.sub_le_iff_le_add',
    le_widestGap_iff (pairwise_occupied coords), hcovers]
  constructor
  · exact exists_covers hhi (fun c hc => ⟨hends.least.2 (mem_occupied.1 hc),
      hends.greatest.2 (mem_occupied.1 hc)⟩) hn'
  · rintro ⟨p, h⟩
    exact h.exists_gap (pairwise_occupied coords) hlo hhi (hends.least.2 hends.greatest.1) hn'

theorem cover_none (hends : Ends coords lo hi) : cover coords none = hi - lo := by
  obtain ⟨low, rest, hcs, hends'⟩ := exists_ends (List.ne_nil_of_mem hends.least.1)
  rw [hends.least.unique hends'.least, hends.greatest.unique hends'.greatest, cover, hcs]

theorem cover_le_cover_none (hne : coords ≠ []) (hn : ∀ c ∈ coords, c < n) :
    cover coords (some n) ≤ cover coords none := by
  obtain ⟨lo, rest, -, hends⟩ := exists_ends hne
  rw [cover_none hends, cover_le_iff hne hn]
  refine ⟨lo, covers_of_steps hn fun c hc => .inl ?_⟩
  have hlo := hends.least.2 hc
  have hhi := hends.greatest.2 hc
  omega

/-- The coordinates after a turn of the ring by `k`. -/
def turn (n k : Nat) (coords : List Nat) : List Nat := coords.map fun c => (c + k) % n

theorem Covers.turn (h : Covers n p s coords) (k : Nat) : Covers n (p + k) s (turn n k coords) := by
  intro d hd
  obtain ⟨c, hc, rfl⟩ := List.mem_map.1 hd
  obtain ⟨i, hi, rfl⟩ := h c hc
  exact ⟨i, hi, by rw [Nat.mod_add_mod, Nat.add_right_comm]⟩

theorem turn_lt (hn : ∀ c ∈ coords, c < n) (k : Nat) : ∀ c ∈ turn n k coords, c < n := by
  intro d hd
  obtain ⟨c, hc, rfl⟩ := List.mem_map.1 hd
  exact Nat.mod_lt _ (Nat.zero_lt_of_lt (hn c hc))

theorem turn_ne_nil (hne : coords ≠ []) (k : Nat) : turn n k coords ≠ [] :=
  mt List.map_eq_nil_iff.1 hne

theorem cover_turn_le (hne : coords ≠ []) (hn : ∀ c ∈ coords, c < n) (k : Nat) :
    cover (turn n k coords) (some n) ≤ cover coords (some n) := by
  obtain ⟨p, hp⟩ := (cover_le_iff hne hn).1 (Nat.le_refl _)
  exact (cover_le_iff (turn_ne_nil hne k) (turn_lt hn k)).2 ⟨p + k, hp.turn k⟩

/-- Turning on until the turns are whole brings the coordinates back. -/
theorem turn_turn (hn : ∀ c ∈ coords, c < n) (k : Nat) :
    turn n (n - k % n) (turn n k coords) = coords := by
  rw [turn, turn, List.map_map]
  refine (List.map_congr_left fun c hc => ?_).trans (List.map_id coords)
  have hc := hn c hc
  have hk := Nat.div_add_mod k n
  have hrest := Nat.mod_lt k (Nat.zero_lt_of_lt hc)
  have hwhole : c + k + (n - k % n) = c + n * (k / n + 1) := by
    rw [Nat.mul_succ]
    omega
  rw [Function.comp_apply, Nat.mod_add_mod, hwhole, Nat.add_mul_mod_self_left, Nat.mod_eq_of_lt hc]
  rfl

theorem cover_turn (hne : coords ≠ []) (hn : ∀ c ∈ coords, c < n) (k : Nat) :
    cover (turn n k coords) (some n) = cover coords (some n) := by
  refine Nat.le_antisymm (cover_turn_le hne hn k) ?_
  have hback := cover_turn_le (turn_ne_nil hne k) (turn_lt hn k) (n - k % n)
  rwa [turn_turn hn k] at hback

/-! ### Differences -/

/-- `a - b`, unless that is below zero. -/
def minus? (a b : Nat) : Option Nat := if b ≤ a then some (a - b) else none

theorem minus?_of_le (h : b ≤ a) : minus? a b = some (a - b) := if_pos h

/-- `widestGap`, which stops at a step down. -/
def widestGap? (gap : Nat) : List Nat → Option Nat
  | a :: b :: rest => do widestGap? (max gap (← minus? b a)) (b :: rest)
  | _ => some gap

/-- `cover`, which stops at a difference below zero. -/
def cover? (coords : List Nat) (ring : Option Nat) : Option Nat :=
  match occupied coords with
  | [] => some 0
  | lo :: rest =>
    let hi := (lo :: rest).getLastD lo
    match ring with
    | none => minus? hi lo
    | some n => do
      let around := (← minus? n hi) + lo
      minus? n (← widestGap? around (lo :: rest))

theorem widestGap?_eq (h : cs.Pairwise (· < ·)) : widestGap? gap cs = some (widestGap gap cs) := by
  fun_induction widestGap gap cs with
  | case1 gap p q rest ih =>
    obtain ⟨hp, hq⟩ := List.pairwise_cons.1 h
    rw [widestGap?, minus?_of_le (Nat.le_of_lt (hp q List.mem_cons_self))]
    exact ih hq
  | case2 cs gap hshort => rw [widestGap?.eq_2 _ _ hshort]

theorem widestGap_le (hgap : gap ≤ m) (hcs : ∀ c ∈ cs, c ≤ m) : widestGap gap cs ≤ m := by
  fun_induction widestGap gap cs with
  | case1 gap p q rest ih =>
    have hq : q ≤ m := hcs q (List.mem_cons_of_mem p List.mem_cons_self)
    exact ih (max_le hgap (Nat.le_trans (Nat.sub_le q p) hq)) fun c hc =>
      hcs c (List.mem_cons_of_mem p hc)
  | case2 cs gap hshort => exact hgap

/-- No difference that is taken for a span is below zero. -/
theorem cover?_eq {ring : Option Nat} (hne : coords ≠ []) (hn : ∀ n ∈ ring, ∀ c ∈ coords, c < n) :
    cover? coords ring = some (cover coords ring) := by
  obtain ⟨lo, rest, hcs, hends⟩ := exists_ends hne
  have hle := hends.least.2 hends.greatest.1
  rw [cover?, cover, hcs]
  dsimp only
  generalize (lo :: rest).getLastD lo = hi at hends hle
  cases ring with
  | none => exact minus?_of_le hle
  | some n =>
    have hhi : hi < n := hn n rfl hi hends.greatest.1
    have hordered : (lo :: rest).Pairwise (· < ·) := hcs ▸ pairwise_occupied coords
    have hbelow : ∀ c ∈ lo :: rest, c ≤ n := fun c hc =>
      Nat.le_of_lt (hn n rfl c (mem_occupied.1 (hcs ▸ hc)))
    have hround : n - hi + lo = n + lo - hi := by omega
    have hgap : widestGap (n + lo - hi) (lo :: rest) ≤ n := widestGap_le (by omega) hbelow
    dsimp only
    rw [minus?_of_le (Nat.le_of_lt hhi), Option.bind_eq_bind, Option.bind_some, hround,
      widestGap?_eq hordered, Option.bind_some, minus?_of_le hgap]

/-- Without a ring the span is that between the ends. On a ring it is the length of the smallest arc
that covers all coordinates, which is no longer than that and stays the same when the ring is turned.
It depends only on which coordinates there are, and no difference that is taken for it is below zero. -/
theorem cover_smallest (hne : coords ≠ []) :
    (∃ lo hi, IsLeast {c | c ∈ coords} lo ∧ IsGreatest {c | c ∈ coords} hi ∧
      cover coords none = hi - lo ∧ cover? coords none = some (hi - lo)) ∧
    (∀ coords', (∀ c, c ∈ coords ↔ c ∈ coords') → ∀ ring, cover coords ring = cover coords' ring) ∧
    ∀ n, (∀ c ∈ coords, c < n) →
      IsLeast {s | ∃ p, ∀ c ∈ coords, ∃ i ≤ s, c = (p + i) % n} (cover coords (some n)) ∧
      cover coords (some n) ≤ cover coords none ∧
      cover? coords (some n) = some (cover coords (some n)) ∧
      ∀ k, cover (coords.map fun c => (c + k) % n) (some n) = cover coords (some n) := by
  refine ⟨?_, fun coords' h ring => cover_congr h ring, fun n hn => ?_⟩
  · obtain ⟨lo, rest, -, hends⟩ := exists_ends hne
    have hspan := cover_none hends
    exact ⟨lo, _, hends.least, hends.greatest, hspan, by rw [cover?_eq hne (by simp), hspan]⟩
  · have hring : ∀ side ∈ some n, ∀ c ∈ coords, c < side := by simpa using hn
    exact ⟨⟨(cover_le_iff hne hn).1 (Nat.le_refl _), fun s h => (cover_le_iff hne hn).2 h⟩,
      cover_le_cover_none hne hn, cover?_eq hne hring, cover_turn hne hn⟩

/-- Round the end of the ring it takes three steps, where it would take six without. -/
theorem cover_smallest_round : ([6, 1, 7, 1] ≠ [] ∧ (∀ c ∈ [6, 1, 7, 1], c < 8) ∧
      ∀ c, c ∈ [6, 1, 7, 1] ↔ c ∈ [1, 6, 7]) ∧
    IsLeast {s | ∃ p, ∀ c ∈ [6, 1, 7, 1], ∃ i ≤ s, c = (p + i) % 8} 3 ∧
    cover [6, 1, 7, 1] none = 6 ∧ cover [1, 6, 7] (some 8) = 3 := by
  have hne : [6, 1, 7, 1] ≠ [] := by decide
  have hn : ∀ c ∈ [6, 1, 7, 1], c < 8 := by decide
  have hsame : ∀ c, c ∈ [6, 1, 7, 1] ↔ c ∈ [1, 6, 7] := by
    simp
    omega
  obtain ⟨-, hcongr, hring⟩ := cover_smallest hne
  have hspan : cover [6, 1, 7, 1] (some 8) = 3 := by decide
  refine ⟨⟨hne, hn, hsame⟩, hspan ▸ (hring 8 hn).1, by decide, ?_⟩
  rw [← hcongr [1, 6, 7] hsame (some 8), hspan]

end HexFabric.Span
