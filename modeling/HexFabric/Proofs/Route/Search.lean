import HexFabric.Route.Search
import HexFabric.Proofs.Machine
import HexFabric.Proofs.Outcome

/-! Breadth-first search leaves marks that lead back: every chip seen, except the source, is marked
with a hop from a chip that was seen before it. -/

namespace HexFabric

/-- What is known of a chip. -/
def markAt (g : Grid) (marks : Array Mark) (c : Chip) : Mark := (marks[g.cell c]?).getD .unseen

/-- The number of chips seen. -/
def seenCount (marks : Array Mark) : Nat := marks.countP (· ≠ .unseen)

/-- Marks lead back to the source, from each chip to one of lower rank, and chips have marks of their
own. -/
structure Marked (m : Machine) (source : Chip) (rank : Chip → Nat) (marks : Array Mark) : Prop where
  small : m.size < 2 ^ 32
  size : marks.size = m.cells
  has_source : m.Has source
  markAt_source : markAt m.toGrid marks source = .source
  eq_source : ∀ c, m.Has c → markAt m.toGrid marks c = .source → c = source
  rank_lt : ∀ c, m.Has c → markAt m.toGrid marks c ≠ .unseen → rank c < seenCount marks
  hop : ∀ c o l, m.Has c → markAt m.toGrid marks c = .via o l → m.hop o l = some c
  seen : ∀ c o l, m.Has c → markAt m.toGrid marks c = .via o l → markAt m.toGrid marks o ≠ .unseen
  lower : ∀ c o l, m.Has c → markAt m.toGrid marks c = .via o l → rank o < rank c

section Marks

variable {m : Machine} {source c next : Chip} {rank : Chip → Nat} {marks : Array Mark} {k : Mark}
  {l : Link}

theorem markAt_setIfInBounds (small : m.size < 2 ^ 32) (hsize : marks.size = m.cells)
    (hn : m.Has next) (hc : m.Has c) : markAt m.toGrid (marks.setIfInBounds (m.cell next) k) c =
      if c = next then k else markAt m.toGrid marks c := by
  have hlt := Grid.cell_lt small hn
  unfold markAt
  rw [Array.getElem?_setIfInBounds]
  by_cases heq : c = next
  · subst heq
    rw [if_pos rfl, if_pos rfl, hsize, if_pos hlt, Option.getD_some]
  · rw [if_neg ((Grid.cell_inj small hn hc).not.2 (Ne.symm heq)), if_neg heq]

/-- A new mark makes its chip seen, and what has been seen stays so. -/
theorem seen_setIfInBounds (small : m.size < 2 ^ 32) (hsize : marks.size = m.cells)
    (hn : m.Has next) (hc : m.Has c) (hk : k ≠ .unseen) :
    markAt m.toGrid (marks.setIfInBounds (m.cell next) k) c ≠ .unseen ↔
      c = next ∨ markAt m.toGrid marks c ≠ .unseen := by
  rw [markAt_setIfInBounds small hsize hn hc]
  by_cases heq : c = next <;> simp [heq, hk]

/-- After a mark is set, the hop that marks a chip is the new one to `next` or an old one. -/
theorem via_of_setIfInBounds {o : Chip} {l' : Link} (small : m.size < 2 ^ 32)
    (hsize : marks.size = m.cells) (hn : m.Has next) (hc : m.Has c)
    (h : markAt m.toGrid (marks.setIfInBounds (m.cell next) k) c = .via o l') :
    c = next ∧ k = .via o l' ∨ c ≠ next ∧ markAt m.toGrid marks c = .via o l' := by
  rw [markAt_setIfInBounds small hsize hn hc] at h
  by_cases heq : c = next
  · rw [if_pos heq] at h
    exact .inl ⟨heq, h⟩
  · rw [if_neg heq] at h
    exact .inr ⟨heq, h⟩

theorem seenCount_setIfInBounds (small : m.size < 2 ^ 32) (hsize : marks.size = m.cells)
    (hn : m.Has next) (hunseen : markAt m.toGrid marks next = .unseen) (hk : k ≠ .unseen) :
    seenCount (marks.setIfInBounds (m.cell next) k) = seenCount marks + 1 := by
  have hlt : m.cell next < marks.size := hsize ▸ Grid.cell_lt small hn
  have hold : marks[m.cell next] = .unseen := by
    rwa [markAt, Array.getElem?_eq_getElem hlt, Option.getD_some] at hunseen
  unfold seenCount
  rw [Array.setIfInBounds_def, dif_pos hlt, Array.countP_set hlt, hold]
  simp [hk]

theorem Marked.returns_fetch (h : Marked m source rank marks) (hc : m.Has c) :
    Returns (fetch marks (m.cell c)) fun k => k = markAt m.toGrid marks c := by
  refine (HexFabric.returns_fetch (h.size ▸ Grid.cell_lt h.small hc)).mono fun k hk => ?_
  rw [markAt, hk, Option.getD_some]

theorem seenCount_le (h : Marked m source rank marks) : seenCount marks ≤ m.size :=
  Grid.cells_eq h.small ▸ h.size ▸ Array.countP_le_size

/-- One more chip is seen, from one that has been seen. -/
theorem Marked.mark (h : Marked m source rank marks) (hchip : m.Has c)
    (hseen : markAt m.toGrid marks c ≠ .unseen) (hhop : m.hop c l = some next)
    (hunseen : markAt m.toGrid marks next = .unseen) :
    Marked m source (fun x => if x = next then seenCount marks else rank x)
      (marks.setIfInBounds (m.cell next) (.via c l)) := by
  have hnext : m.Has next := (m.live_of_hop hhop).2.1
  have hmark : ∀ x, m.Has x → markAt m.toGrid (marks.setIfInBounds (m.cell next) (.via c l)) x =
      if x = next then .via c l else markAt m.toGrid marks x :=
    fun x hx => markAt_setIfInBounds h.small h.size hnext hx
  have hne : ∀ x, markAt m.toGrid marks x ≠ .unseen → x ≠ next :=
    fun x hx heq => hx (heq ▸ hunseen)
  have hcount := seenCount_setIfInBounds (k := .via c l) h.small h.size hnext hunseen nofun
  have hsource : source ≠ next := hne source (by rw [h.markAt_source]; nofun)
  have hvia : ∀ x o l', m.Has x →
      markAt m.toGrid (marks.setIfInBounds (m.cell next) (.via c l)) x = .via o l' →
      x = next ∧ Mark.via c l = .via o l' ∨ x ≠ next ∧ markAt m.toGrid marks x = .via o l' :=
    fun x o l' hx => via_of_setIfInBounds h.small h.size hnext hx
  refine ⟨h.small, by rw [Array.size_setIfInBounds, h.size], h.has_source, ?_, fun x hx hmx => ?_,
    fun x hx hmx => ?_, fun x o l' hx hmx => ?_, fun x o l' hx hmx => ?_, fun x o l' hx hmx => ?_⟩
  · rw [hmark source h.has_source, if_neg hsource]
    exact h.markAt_source
  · rw [hmark x hx] at hmx
    by_cases heq : x = next
    · rw [if_pos heq] at hmx
      cases hmx
    · rw [if_neg heq] at hmx
      exact h.eq_source x hx hmx
  · rw [hcount]
    by_cases heq : x = next
    · rw [if_pos heq]
      exact Nat.lt_succ_self _
    · rw [hmark x hx, if_neg heq] at hmx
      rw [if_neg heq]
      exact Nat.lt_succ_of_lt (h.rank_lt x hx hmx)
  · rcases hvia x o l' hx hmx with ⟨rfl, ⟨⟩⟩ | ⟨_, hold⟩
    · exact hhop
    · exact h.hop x o l' hx hold
  · rcases hvia x o l' hx hmx with ⟨_, ⟨⟩⟩ | ⟨_, hold⟩
    · rwa [hmark c hchip, if_neg (hne c hseen)]
    · have ho := h.seen x o l' hx hold
      rwa [hmark o (m.live_of_hop (h.hop x o l' hx hold)).1.1, if_neg (hne o ho)]
  · rcases hvia x o l' hx hmx with ⟨heq, ⟨⟩⟩ | ⟨heq, hold⟩
    · rw [if_pos heq, if_neg (hne c hseen)]
      exact h.rank_lt c hchip hseen
    · rw [if_neg heq, if_neg (hne o (h.seen x o l' hx hold))]
      exact h.lower x o l' hx hold

end Marks

namespace Search

/-- The marks lead back, and the chips in the queue have been seen. -/
structure Sound (m : Machine) (source : Chip) (s : Search) : Prop where
  marked : ∃ rank, Marked m source rank s.marks
  queue : ∀ c ∈ s.queue, m.Has c ∧ markAt m.toGrid s.marks c ≠ .unseen

variable {m : Machine} {source chip : Chip} {s : Search} {sinks : List Chip}

/-- At first the source is all that has been seen. -/
theorem returns_start (small : m.size < 2 ^ 32) (h : m.Has source) (sinks : List Chip) :
    Returns (start m source sinks) fun s => s.Sound m source ∧ s.queue = [source] ∧
      (∀ c, m.Has c → (markAt m.toGrid s.marks c ≠ .unseen ↔ c = source)) ∧
      seenCount s.marks = 1 ∧ s.pending = (sinks.filter (· ≠ source)).length := by
  have hlt := Grid.cell_lt small h
  have hold : ∀ c, markAt m.toGrid (Array.replicate m.cells .unseen) c = .unseen := by
    intro c
    rw [markAt, Array.getElem?_replicate]
    split <;> rfl
  have hmark : ∀ c, m.Has c → markAt m.toGrid
      ((Array.replicate m.cells Mark.unseen).setIfInBounds (m.cell source) .source) c =
        if c = source then .source else .unseen := by
    intro c hc
    rw [markAt_setIfInBounds small Array.size_replicate h hc, hold]
  have hcount : seenCount ((Array.replicate m.cells Mark.unseen).setIfInBounds (m.cell source)
      .source) = 1 := by
    rw [seenCount_setIfInBounds (k := .source) small Array.size_replicate h (hold source) nofun]
    simp [seenCount]
  unfold start
  rw [store_of_lt (by rwa [Array.size_replicate])]
  refine .pure ⟨⟨⟨fun _ => 0, small, ?_, h, ?_, fun c hc hmc => ?_, fun c _ _ => ?_,
    fun c o l hc hmc => ?_, fun c o l hc hmc => ?_, fun c o l hc hmc => ?_⟩, fun c hc => ?_⟩, rfl,
    fun c hc => ?_, hcount, rfl⟩
  · rw [Array.size_setIfInBounds, Array.size_replicate]
  · rw [hmark source h, if_pos rfl]
  · rw [hmark c hc] at hmc
    by_contra hne
    rw [if_neg hne] at hmc
    cases hmc
  · rw [hcount]
    exact Nat.zero_lt_one
  · rw [hmark c hc] at hmc
    split at hmc <;> cases hmc
  · rw [hmark c hc] at hmc
    split at hmc <;> cases hmc
  · rw [hmark c hc] at hmc
    split at hmc <;> cases hmc
  · rw [List.mem_singleton.1 hc, hmark source h, if_pos rfl]
    exact ⟨h, nofun⟩
  · rw [hmark c hc]
    split_ifs with heq <;> simp [heq]

/-- The search once `next` has been seen, from `chip` over its link `l`. -/
def noted (m : Machine) (sinks : List Chip) (chip : Chip) (l : Link) (next : Chip) (s : Search) :
    Search :=
  ⟨s.marks.setIfInBounds (m.cell next) (.via chip l), s.queue ++ [next],
    if next ∈ sinks then s.pending - 1 else s.pending⟩

/-- Following a link changes nothing, or leads to a chip that had not been seen. -/
theorem returns_follow {rank : Chip → Nat} (h : Marked m source rank s.marks) (l : Link) :
    Returns (follow m sinks chip s l) fun s' =>
      (s' = s ∧ ∀ next, m.hop chip l = some next → markAt m.toGrid s.marks next ≠ .unseen) ∨
      ∃ next, m.hop chip l = some next ∧ markAt m.toGrid s.marks next = .unseen ∧
        s' = s.noted m sinks chip l next := by
  unfold follow
  cases hhop : m.hop chip l with
  | none => exact .pure (.inl ⟨rfl, nofun⟩)
  | some next =>
    have hnext : m.Has next := (m.live_of_hop hhop).2.1
    refine Ends.bind (h.returns_fetch hnext) fun k hk => ?_
    have hsame : k ≠ .unseen → ∀ next', some next = some next' →
        markAt m.toGrid s.marks next' ≠ .unseen := by
      rintro hne _ ⟨rfl⟩
      rwa [← hk]
    cases k with
    | source => exact .pure (.inl ⟨rfl, hsame nofun⟩)
    | via o l' => exact .pure (.inl ⟨rfl, hsame nofun⟩)
    | unseen =>
      show Ends (store s.marks (m.cell next) _ >>= _) _ _
      rw [store_of_lt (h.size ▸ Grid.cell_lt h.small hnext)]
      exact .pure (.inr ⟨next, rfl, hk.symm, rfl⟩)

theorem markAt_noted {rank : Chip → Nat} (h : Marked m source rank s.marks) {l : Link}
    {next c : Chip} (hnext : m.Has next) (hc : m.Has c) :
    markAt m.toGrid (s.noted m sinks chip l next).marks c =
      if c = next then .via chip l else markAt m.toGrid s.marks c :=
  markAt_setIfInBounds h.small h.size hnext hc

theorem seen_noted {rank : Chip → Nat} (h : Marked m source rank s.marks) {l : Link} {next c : Chip}
    (hnext : m.Has next) (hc : m.Has c) :
    markAt m.toGrid (s.noted m sinks chip l next).marks c ≠ .unseen ↔
      c = next ∨ markAt m.toGrid s.marks c ≠ .unseen :=
  seen_setIfInBounds h.small h.size hnext hc nofun

theorem Sound.noted (h : s.Sound m source) (hchip : m.Has chip)
    (hseen : markAt m.toGrid s.marks chip ≠ .unseen) {l : Link} {next : Chip}
    (hhop : m.hop chip l = some next) (hunseen : markAt m.toGrid s.marks next = .unseen) :
    (s.noted m sinks chip l next).Sound m source := by
  obtain ⟨rank, hmarked⟩ := h.marked
  have hnext : m.Has next := (m.live_of_hop hhop).2.1
  refine ⟨⟨_, hmarked.mark hchip hseen hhop hunseen⟩, fun c hc => ?_⟩
  rcases List.mem_append.1 hc with hc | hc
  · obtain ⟨hc, hseen⟩ := h.queue c hc
    exact ⟨hc, (seen_noted hmarked hnext hc).2 (.inr hseen)⟩
  · rw [List.mem_singleton.1 hc]
    exact ⟨hnext, (seen_noted hmarked hnext hnext).2 (.inl rfl)⟩

theorem returns_firstUnseen {rank : Chip → Nat} (h : Marked m source rank s.marks)
    {chips : List Chip} (hchips : ∀ c ∈ chips, m.Has c) :
    Returns (firstUnseen m s chips)
      (· = chips.find? fun c => markAt m.toGrid s.marks c = .unseen) := by
  induction chips with
  | nil => exact .ok rfl
  | cons c rest ih =>
    unfold firstUnseen
    refine Ends.bind (h.returns_fetch (hchips c List.mem_cons_self)) fun k hk => ?_
    have hrest : k ≠ .unseen → Returns (firstUnseen m s rest)
        (· = (c :: rest).find? fun c => markAt m.toGrid s.marks c = .unseen) := by
      intro hne
      rw [List.find?_cons_of_neg (by simpa [← hk] using hne)]
      exact ih fun c hc => hchips c (List.mem_cons_of_mem _ hc)
    cases k with
    | unseen => exact .pure (List.find?_cons_of_pos (by simp [← hk])).symm
    | source => exact hrest nofun
    | via o l => exact hrest nofun

end Search

end HexFabric
