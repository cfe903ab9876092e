import HexFabric.Proofs.Route.Search
import Mathlib.Data.List.Nodup
import Mathlib.Order.Bounds.Basic

/-! Breadth-first search finds shortest ways, also when it stops early. Chips are seen level by level:
those in the queue are sorted by depth, no chip seen is more than a level deeper than the first of
them, and all that a hop leads to from a chip already left has been seen. So the depth of each chip
seen is the least number of hops to it, and once the queue is empty all chips that hops lead to have
been seen. -/

namespace HexFabric

/-- `n` hops lead from `source` to a chip. -/
inductive Machine.Walk (m : Machine) (source : Chip) : Nat → Chip → Prop where
  | start : Walk m source 0 source
  | step {n : Nat} {a c : Chip} {l : Link} (walk : Walk m source n a) (hop : m.hop a l = some c) :
    Walk m source (n + 1) c

/-- Hops lead from `source` to `c`. -/
def Machine.Reaches (m : Machine) (source c : Chip) : Prop := ∃ n, m.Walk source n c

/-- A chip has been seen. -/
abbrev Seen (m : Machine) (marks : Array Mark) (c : Chip) : Prop := markAt m.toGrid marks c ≠ .unseen

/-- The chips seen make levels. The search still has to go on from the chips in `front`. -/
structure Levels (m : Machine) (source : Chip) (depth : Chip → Nat) (marks : Array Mark)
    (front : List Chip) : Prop where
  depth_source : depth source = 0
  walk : ∀ c, m.Has c → Seen m marks c → m.Walk source (depth c) c
  via : ∀ c o l, m.Has c → markAt m.toGrid marks c = .via o l → depth c = depth o + 1
  sorted : front.Pairwise fun a b => depth a ≤ depth b
  near : ∀ a ∈ front, ∀ c, m.Has c → Seen m marks c → depth c ≤ depth a + 1
  closed : ∀ c, m.Has c → Seen m marks c → c ∉ front → ∀ l n, m.hop c l = some n →
    Seen m marks n ∧ depth n ≤ depth c + 1

section Levels

variable {m : Machine} {source chip next c : Chip} {rank depth : Chip → Nat} {marks : Array Mark}
  {front queue : List Chip} {l : Link} {n : Nat}

theorem Marked.seen_source (h : Marked m source rank marks) : Seen m marks source := by
  rw [Seen, h.markAt_source]
  nofun

/-- A walk ends at a chip that has been seen, or it is longer than the way to some chip from which
the search still has to go on. -/
theorem Levels.seen_or_longer (h : Levels m source depth marks front)
    (hmarked : Marked m source rank marks) (hwalk : m.Walk source n c) :
    (Seen m marks c ∧ depth c ≤ n) ∨ ∃ a ∈ front, depth a < n := by
  induction hwalk with
  | start => exact .inl ⟨hmarked.seen_source, Nat.le_of_eq h.depth_source⟩
  | @step n a c l hwalk hhop ih =>
    rcases ih with ⟨hseen, hle⟩ | ⟨b, hb, hlt⟩
    · by_cases hfront : a ∈ front
      · exact .inr ⟨a, hfront, Nat.lt_succ_of_le hle⟩
      · obtain ⟨hc, hdepth⟩ := h.closed a (m.live_of_hop hhop).1.1 hseen hfront l c hhop
        exact .inl ⟨hc, Nat.le_trans hdepth (Nat.succ_le_succ hle)⟩
    · exact .inr ⟨b, hb, Nat.lt_succ_of_lt hlt⟩

/-- The depth of a chip that has been seen is the least number of hops to it. -/
theorem Levels.isLeast (h : Levels m source depth marks front)
    (hmarked : Marked m source rank marks) (hc : m.Has c) (hseen : Seen m marks c) :
    IsLeast {n | m.Walk source n c} (depth c) := by
  refine ⟨h.walk c hc hseen, fun n hn => ?_⟩
  rcases h.seen_or_longer hmarked hn with ⟨_, hle⟩ | ⟨a, ha, hlt⟩
  · exact hle
  · exact Nat.le_trans (h.near a ha c hc hseen) hlt

/-- Once there is nothing to go on from, what has not been seen is out of reach. -/
theorem Levels.seen_iff (h : Levels m source depth marks []) (hmarked : Marked m source rank marks)
    (hc : m.Has c) : Seen m marks c ↔ m.Reaches source c := by
  refine ⟨fun hseen => ⟨_, h.walk c hc hseen⟩, fun ⟨n, hn⟩ => ?_⟩
  rcases h.seen_or_longer hmarked hn with ⟨hseen, _⟩ | ⟨_, ha, _⟩
  · exact hseen
  · cases ha

/-- One more chip is seen, from the first one to go on from. -/
theorem Levels.mark (h : Levels m source depth marks (chip :: queue))
    (hmarked : Marked m source rank marks)
    (hfront : ∀ a ∈ chip :: queue, m.Has a ∧ Seen m marks a) (hhop : m.hop chip l = some next)
    (hunseen : markAt m.toGrid marks next = .unseen) :
    Levels m source (fun x => if x = next then depth chip + 1 else depth x)
      (marks.setIfInBounds (m.cell next) (.via chip l)) (chip :: (queue ++ [next])) := by
  have hnext : m.Has next := (m.live_of_hop hhop).2.1
  have hne : ∀ {x}, Seen m marks x → x ≠ next := fun hx heq => hx (heq ▸ hunseen)
  have hseen : ∀ x, m.Has x → (Seen m (marks.setIfInBounds (m.cell next) (.via chip l)) x ↔
      x = next ∨ Seen m marks x) :=
    fun x hx => seen_setIfInBounds hmarked.small hmarked.size hnext hx nofun
  have hold : ∀ {x}, Seen m marks x →
      (if x = next then depth chip + 1 else depth x) = depth x := fun hx => if_neg (hne hx)
  have hchip := hfront chip List.mem_cons_self
  have hfirst : ∀ a ∈ chip :: queue, depth chip ≤ depth a :=
    List.forall_mem_cons.2 ⟨Nat.le_refl _, (List.pairwise_cons.1 h.sorted).1⟩
  have hlast : ∀ x, m.Has x → Seen m marks x → depth x ≤ depth chip + 1 :=
    h.near chip List.mem_cons_self
  refine ⟨(hold hmarked.seen_source).trans h.depth_source, fun x hx hmx => ?_, fun x o l' hx hmx => ?_, ?_,
    fun a ha x hx hmx => ?_, fun x hx hmx hnot l' n hn => ?_⟩
  · rcases (hseen x hx).1 hmx with rfl | hmx
    · rw [if_pos rfl]
      exact (h.walk chip hchip.1 hchip.2).step hhop
    · rw [hold hmx]
      exact h.walk x hx hmx
  · rcases via_of_setIfInBounds hmarked.small hmarked.size hnext hx hmx with ⟨heq, ⟨⟩⟩ | ⟨heq, hmx⟩
    · rw [if_pos heq, hold hchip.2]
    · rw [if_neg heq, hold (hmarked.seen x o l' hx hmx)]
      exact h.via x o l' hx hmx
  · rw [← List.cons_append, List.pairwise_append]
    refine ⟨h.sorted.imp_of_mem fun {a b} ha hb hab => ?_, List.pairwise_singleton _ _,
      fun a ha b hb => ?_⟩
    · rwa [hold (hfront a ha).2, hold (hfront b hb).2]
    · rw [List.mem_singleton.1 hb, hold (hfront a ha).2, if_pos rfl]
      exact hlast a (hfront a ha).1 (hfront a ha).2
  · rw [← List.cons_append, List.mem_append, List.mem_singleton] at ha
    rcases ha with ha | rfl
    · rw [hold (hfront a ha).2]
      rcases (hseen x hx).1 hmx with rfl | hmx
      · rw [if_pos rfl]
        exact Nat.succ_le_succ (hfirst a ha)
      · rw [hold hmx]
        exact h.near a ha x hx hmx
    · rw [if_pos rfl]
      rcases (hseen x hx).1 hmx with rfl | hmx
      · rw [if_pos rfl]
        exact Nat.le_succ _
      · rw [hold hmx]
        exact Nat.le_succ_of_le (hlast x hx hmx)
  · rw [← List.cons_append, List.mem_append, not_or, List.mem_singleton] at hnot
    have hmx := ((hseen x hx).1 hmx).resolve_left hnot.2
    obtain ⟨hn', hdepth⟩ := h.closed x hx hmx hnot.1 l' n hn
    exact ⟨(hseen n (m.live_of_hop hn).2.1).2 (.inr hn'), by rwa [hold hmx, hold hn']⟩

/-- All that a hop leads to from the first chip has been seen. -/
theorem Levels.pop (h : Levels m source depth marks (chip :: queue))
    (hall : ∀ l n, m.hop chip l = some n → Seen m marks n) :
    Levels m source depth marks queue := by
  refine ⟨h.depth_source, h.walk, h.via, (List.pairwise_cons.1 h.sorted).2,
    fun a ha => h.near a (List.mem_cons_of_mem _ ha), fun c hc hseen hnot l n hn => ?_⟩
  by_cases heq : c = chip
  · subst heq
    have hn' := hall l n hn
    exact ⟨hn', h.near c List.mem_cons_self n (m.live_of_hop hn).2.1 hn'⟩
  · exact h.closed c hc hseen (fun hmem => (List.mem_cons.1 hmem).elim heq hnot) l n hn

end Levels

namespace Search

/-- A search that has seen its chips by levels, on the way of going on from `current` over the links
of it. There is fuel for all chips to come. -/
structure Explores (m : Machine) (source : Chip) (sinks : List Chip) (fuel : Nat)
    (current : List Chip) (s : Search) : Prop extends s.Sound m source where
  seen : ∀ c ∈ current, m.Has c ∧ Seen m s.marks c
  levels : ∃ depth, Levels m source depth s.marks (current ++ s.queue)
  pending : s.pending = sinks.countP fun c => markAt m.toGrid s.marks c = .unseen
  fuel : m.size + 1 + s.queue.length ≤ fuel + seenCount s.marks

/-- A search that has seen its chips by levels, and among them all of `sinks` unless there was
nothing left to go on from. -/
structure Finished (m : Machine) (source : Chip) (sinks : List Chip) (s : Search) : Prop
    extends s.Sound m source where
  levels : ∃ depth, Levels m source depth s.marks s.queue
  done : (∀ c ∈ sinks, Seen m s.marks c) ∨ s.queue = []

variable {m : Machine} {source chip : Chip} {s : Search} {sinks current : List Chip} {fuel : Nat}

/-- One more chip seen is one chip less to look for, if it is looked for. -/
theorem countP_noted {rank : Chip → Nat} (h : Marked m source rank s.marks) {l : Link} {next : Chip}
    (hnext : m.Has next) (hunseen : markAt m.toGrid s.marks next = .unseen)
    (hsinks : ∀ c ∈ sinks, m.Has c) (hnodup : sinks.Nodup) :
    (sinks.countP fun c => markAt m.toGrid (s.noted m sinks chip l next).marks c = .unseen) =
      (sinks.countP fun c => markAt m.toGrid s.marks c = .unseen) -
        if next ∈ sinks then 1 else 0 := by
  have hrest : sinks.countP (fun c => markAt m.toGrid (s.noted m sinks chip l next).marks c = .unseen) =
      (sinks.erase next).countP fun c => markAt m.toGrid s.marks c = .unseen := by
    rw [hnodup.erase_eq_filter, List.countP_filter]
    refine List.countP_congr fun c hc => ?_
    rw [markAt_noted h hnext (hsinks c hc)]
    by_cases heq : c = next <;> simp [heq]
  by_cases hmem : next ∈ sinks
  · rw [hrest, if_pos hmem, (List.perm_cons_erase hmem).countP_eq,
      List.countP_cons_of_pos (by simp [hunseen]), Nat.add_sub_cancel]
  · rw [hrest, if_neg hmem, List.erase_of_not_mem hmem, Nat.sub_zero]

/-- Following a link from the chip from which the search goes on. -/
theorem Explores.returns_follow (h : s.Explores m source sinks fuel [chip])
    (hsinks : ∀ c ∈ sinks, m.Has c) (hnodup : sinks.Nodup) (l : Link) :
    Returns (follow m sinks chip s l) fun s' => s'.Explores m source sinks fuel [chip] ∧
      (∀ n, m.hop chip l = some n → Seen m s'.marks n) ∧
      ∀ c, m.Has c → Seen m s.marks c → Seen m s'.marks c := by
  obtain ⟨rank, hmarked⟩ := h.marked
  obtain ⟨depth, hlevels⟩ := h.levels
  obtain ⟨hchip, hseen⟩ := h.seen chip (List.mem_singleton_self chip)
  refine (Search.returns_follow hmarked l).mono ?_
  rintro s' (⟨rfl, hall⟩ | ⟨next, hhop, hunseen, rfl⟩)
  · exact ⟨h, hall, fun _ _ => id⟩
  · have hnext : m.Has next := (m.live_of_hop hhop).2.1
    have hkeep : ∀ c, m.Has c → Seen m s.marks c →
        Seen m (s.noted m sinks chip l next).marks c :=
      fun c hc hmc => (seen_noted hmarked hnext hc).2 (.inr hmc)
    have hfront : ∀ a ∈ chip :: s.queue, m.Has a ∧ Seen m s.marks a :=
      List.forall_mem_cons.2 ⟨⟨hchip, hseen⟩, h.queue⟩
    refine ⟨⟨h.toSound.noted hchip hseen hhop hunseen, fun c hc => ?_,
      ⟨_, hlevels.mark hmarked hfront hhop hunseen⟩, ?_, ?_⟩, fun n hn => ?_, hkeep⟩
    · rw [List.mem_singleton.1 hc]
      exact ⟨hchip, hkeep chip hchip hseen⟩
    · rw [countP_noted hmarked hnext hunseen hsinks hnodup, ← h.pending]
      show (if next ∈ sinks then s.pending - 1 else s.pending) = _
      split <;> rfl
    · have hfuel := h.fuel
      have hcount := seenCount_setIfInBounds (k := .via chip l) hmarked.small hmarked.size hnext
        hunseen nofun
      simp only [Search.noted, List.length_append, List.length_singleton, hcount]
      omega
    · rw [hhop] at hn
      cases hn
      exact (seen_noted hmarked hnext hnext).2 (.inl rfl)

/-- Going on from the first chip in the queue. -/
theorem Explores.returns_followAll {marks : Array Mark} {queue : List Chip} {pending : Nat}
    (h : Explores m source sinks (fuel + 1) [] ⟨marks, chip :: queue, pending⟩)
    (hsinks : ∀ c ∈ sinks, m.Has c) (hnodup : sinks.Nodup) :
    Returns (Link.all.foldlM (follow m sinks chip) ⟨marks, queue, pending⟩)
      (Explores m source sinks fuel []) := by
  have hchip := h.queue chip List.mem_cons_self
  have hstart : Explores m source sinks fuel [chip] ⟨marks, queue, pending⟩ := by
    refine ⟨⟨h.marked, fun c hc => h.queue c (List.mem_cons_of_mem _ hc)⟩,
      fun c hc => List.mem_singleton.1 hc ▸ hchip, h.levels, h.pending, ?_⟩
    have := h.fuel
    simp only [List.length_cons] at this ⊢
    omega
  have hloop := Ends.foldlM (l := Link.all) (f := follow m sinks chip) (E := fun _ => False)
    (fun rest s => s.Explores m source sinks fuel [chip] ∧
      ∀ l ∉ rest, ∀ n, m.hop chip l = some n → Seen m s.marks n)
    ⟨hstart, fun l hl => absurd l.mem_all hl⟩ fun l _ rest s ⟨hs, hdone⟩ => by
      refine (hs.returns_follow hsinks hnodup l).mono ?_
      rintro s' ⟨hs', hseen, hkeep⟩
      refine ⟨hs', fun l' hl' n hn => ?_⟩
      by_cases heq : l' = l
      · exact hseen n (heq ▸ hn)
      · exact hkeep n (m.live_of_hop hn).2.1
          (hdone l' (fun hmem => (List.mem_cons.1 hmem).elim heq hl') n hn)
  refine hloop.mono ?_
  rintro s ⟨hs, hall⟩
  obtain ⟨depth, hlevels⟩ := hs.levels
  exact ⟨hs.toSound, nofun, ⟨depth, hlevels.pop fun l => hall l List.not_mem_nil⟩, hs.pending, hs.fuel⟩

theorem Explores.returns_run (h : s.Explores m source sinks fuel []) (hsinks : ∀ c ∈ sinks, m.Has c)
    (hnodup : sinks.Nodup) : Returns (run m sinks fuel s) (Finished m source sinks) := by
  induction fuel generalizing s with
  | zero =>
    -- more chips would have been seen than there are
    obtain ⟨rank, hmarked⟩ := h.marked
    have hcount := seenCount_le hmarked
    have hfuel := h.fuel
    omega
  | succ fuel ih =>
    unfold run
    by_cases hpending : s.pending = 0
    · rw [if_pos hpending]
      refine .pure ⟨h.toSound, h.levels, .inl fun c hc hunseen => ?_⟩
      have hcount := h.pending
      rw [hpending, eq_comm, List.countP_eq_zero] at hcount
      exact hcount c hc (decide_eq_true hunseen)
    rw [if_neg hpending]
    obtain ⟨marks, queue, pending⟩ := s
    cases queue with
    | nil => exact .pure ⟨h.toSound, h.levels, .inr rfl⟩
    | cons chip queue => exact Ends.bind (h.returns_followAll hsinks hnodup) fun s hs => ih hs

theorem returns_fromSource (small : m.size < 2 ^ 32) (h : m.Has source) (hsinks : ∀ c ∈ sinks, m.Has c)
    (hnodup : sinks.Nodup) :
    Returns (fromSource m source sinks) (Finished m source sinks) := by
  refine Ends.bind (returns_start small h sinks) ?_
  rintro s ⟨hs, hqueue, hseen, hcount, hpending⟩
  refine Explores.returns_run ⟨hs, nofun, ⟨fun _ => 0, ?_⟩, ?_, ?_⟩ hsinks hnodup
  · rw [hqueue]
    refine ⟨rfl, fun c hc hmc => ?_, fun c o l hc hmc => ?_, List.pairwise_singleton _ _,
      fun _ _ _ _ _ => Nat.zero_le _, fun c hc hmc hnot => ?_⟩
    · rw [(hseen c hc).1 hmc]
      exact .start
    · obtain ⟨rank, hmarked⟩ := hs.marked
      rw [(hseen c hc).1 (by rw [hmc]; nofun), hmarked.markAt_source] at hmc
      cases hmc
    · exact absurd (List.mem_singleton.2 ((hseen c hc).1 hmc)) hnot
  · rw [hpending, ← List.countP_eq_length_filter]
    refine List.countP_congr fun c hc => ?_
    simpa using (hseen c (hsinks c hc)).symm.not
  · rw [hqueue, hcount]
    rfl

end Search

end HexFabric
