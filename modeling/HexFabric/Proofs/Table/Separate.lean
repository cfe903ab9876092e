import HexFabric.Proofs.Table.Minimise
import Mathlib.Data.List.Sort

/-! Merging the patterns of one route. Those of other routes are in the way only by the keys of theirs
that they accept (`mergeAll_congr`). If every key has one pattern at most, and no merge brings together
keys inside a set and keys outside of it, the patterns inside are merged as if they were alone
(`Separate.mergeAll_filter`). -/

namespace HexFabric

theorem findSome?_congr {α β : Type} {f g : α → Option β} {l : List α} (h : ∀ a ∈ l, f a = g a) :
    l.findSome? f = l.findSome? g := by
  induction l with
  | nil => rfl
  | cons a rest ih =>
    rw [List.findSome?_cons, List.findSome?_cons, h a List.mem_cons_self,
      ih fun b hb => h b (List.mem_cons_of_mem a hb)]

theorem Pattern.Clean.without {p : Pattern} (h : p.Clean) (bit : BitVec 32) :
    Pattern.Clean ⟨p.key &&& ~~~bit, p.mask &&& ~~~bit⟩ := by
  change (p.key &&& ~~~bit) &&& (p.mask &&& ~~~bit) = p.key &&& ~~~bit
  conv_rhs => rw [← show p.key &&& p.mask = p.key from h]
  ext i
  simp only [BitVec.getElem_and]
  grind

/-- Clean patterns in ascending order, of which every key has one at most. -/
structure Separate (patterns : List Pattern) : Prop where
  ascending : patterns.Pairwise (· < ·)
  clean : ∀ p ∈ patterns, p.Clean
  unique : ∀ p ∈ patterns, ∀ q ∈ patterns, ∀ key, p.accepts key → q.accepts key → p = q

theorem Separate.nodup {patterns : List Pattern} (h : Separate patterns) : patterns.Nodup :=
  h.ascending.imp fun {a b} (hlt : a < b) (heq : a = b) => StrictLinear.irrefl b (heq ▸ hlt)

namespace Merge

variable {others others' patterns : List Pattern} {m : Merge}

theorem mem_apply_iff (h : patterns.Nodup) {q : Pattern} :
    q ∈ m.apply patterns ↔ q = m.merged ∨ q ∈ patterns ∧ q ≠ m.lower ∧ q ≠ m.upper := by
  rw [apply, Ascending.mem_insert, (h.erase _).mem_erase_iff, h.mem_erase_iff]
  tauto

theorem clean_merged (h : find? others patterns = some m) (hclean : ∀ p ∈ patterns, p.Clean) :
    m.merged.Clean := by
  obtain ⟨p, hp, i, _, h⟩ := of_find? h
  obtain ⟨_, _, _, hmerged, _⟩ := of_overBit? h
  rw [hmerged]
  exact (hclean p hp).without _

theorem clean_apply (h : find? others patterns = some m) (hclean : ∀ p ∈ patterns, p.Clean) :
    ∀ p ∈ m.apply patterns, p.Clean := by
  intro p hp
  rcases Ascending.mem_insert.1 hp with rfl | hp
  · exact clean_merged h hclean
  · exact hclean p (List.mem_of_mem_erase (List.mem_of_mem_erase hp))

theorem mem_of_find? (h : find? others patterns = some m) :
    m.lower ∈ patterns ∧ m.upper ∈ patterns := by
  obtain ⟨p, hp, i, _, h⟩ := of_find? h
  obtain ⟨rfl, _, hupper, _⟩ := of_overBit? h
  exact ⟨hp, hupper⟩

/-- A merge keeps the patterns separate: the merged one has the keys of the two that it replaces, so
no other one has any of them. -/
theorem separate_apply (hm : find? others patterns = some m) (h : Separate patterns) :
    Separate (m.apply patterns) := by
  obtain ⟨hlower, hupper⟩ := mem_of_find? hm
  have hmerged : ∀ q ∈ patterns, q ≠ m.lower → q ≠ m.upper → ∀ key, m.merged.accepts key →
      ¬q.accepts key := by
    intro q hq hql hqu key hkey hqk
    rcases (accepts_merged hm key).1 hkey with hkey | hkey
    · exact hql (h.unique q hq _ hlower key hqk hkey)
    · exact hqu (h.unique q hq _ hupper key hqk hkey)
  constructor
  · exact Ascending.pairwise_insert
      (h.ascending.sublist (List.erase_sublist.trans List.erase_sublist))
  · exact clean_apply hm h.clean
  · intro p hp q hq key hpk hqk
    rcases (mem_apply_iff h.nodup).1 hp with rfl | ⟨hp, hpl, hpu⟩ <;>
      rcases (mem_apply_iff h.nodup).1 hq with rfl | ⟨hq, hql, hqu⟩
    · rfl
    · exact absurd hqk (hmerged q hq hql hqu key hpk)
    · exact absurd hpk (hmerged p hp hpl hpu key hqk)
    · exact h.unique p hp q hq key hpk hqk

/-- Some of the patterns overlap `p` exactly if they accept a key of `p`. -/
theorem any_overlaps_iff {p : Pattern} (hothers : ∀ q ∈ others, q.Clean) (hp : p.Clean) :
    others.any (·.overlaps p) ↔ ∃ key, p.accepts key ∧ AcceptsSome others key := by
  rw [List.any_eq_true]
  constructor
  · rintro ⟨q, hq, hoverlap⟩
    obtain ⟨key, hqk, hkey⟩ := (Pattern.overlaps_iff (hothers q hq) hp).1 hoverlap
    exact ⟨key, hkey, q, hq, hqk⟩
  · rintro ⟨key, hkey, q, hq, hqk⟩
    exact ⟨q, hq, Pattern.overlaps_of_accepts hqk hkey⟩

/-- The other patterns are in the way of merges only by the keys of the group that they accept. -/
theorem find?_congr (hclean : ∀ p ∈ patterns, p.Clean) (hothers : ∀ q ∈ others, q.Clean)
    (hothers' : ∀ q ∈ others', q.Clean)
    (h : ∀ key, AcceptsSome patterns key → (AcceptsSome others key ↔ AcceptsSome others' key)) :
    find? others patterns = find? others' patterns := by
  refine findSome?_congr fun p hp => findSome?_congr fun i hi => ?_
  have hi : i < 32 := List.mem_range.1 hi
  unfold overBit?
  refine if_congr ?_ rfl rfl
  refine and_congr_right fun hmask => and_congr_right fun _ => and_congr_right fun hupper => ?_
  have hmerged := (hclean p hp).without (BitVec.twoPow 32 i)
  rw [any_overlaps_iff hothers hmerged, any_overlaps_iff hothers' hmerged]
  refine not_congr (exists_congr fun key => and_congr_right fun hkey => h key ?_)
  rcases (Pattern.accepts_without_bit hi hmask key).1 hkey with hkey | hkey
  · exact ⟨p, hp, hkey⟩
  · exact ⟨_, hupper, hkey⟩

end Merge

theorem Separate.mergeAll {patterns : List Pattern} (h : Separate patterns)
    (others : List Pattern) : Separate (mergeAll others patterns) := by
  fun_induction HexFabric.mergeAll others patterns with
  | case1 patterns hnone => exact h
  | case2 patterns m hm ih => exact ih (Merge.separate_apply hm h)

theorem mergeAll_of_find?_eq_none {others patterns : List Pattern}
    (h : Merge.find? others patterns = none) : mergeAll others patterns = patterns := by
  unfold mergeAll
  split
  · rfl
  · simp_all

theorem mergeAll_of_find?_eq_some {others patterns : List Pattern} {m : Merge}
    (h : Merge.find? others patterns = some m) :
    mergeAll others patterns = mergeAll others (m.apply patterns) := by
  conv_lhs => unfold mergeAll
  split
  · simp_all
  · simp_all

/-- What has been merged is not merged any further. -/
theorem mergeAll_mergeAll (others patterns : List Pattern) :
    mergeAll others (mergeAll others patterns) = mergeAll others patterns := by
  fun_induction mergeAll others patterns with
  | case1 patterns hnone => exact mergeAll_of_find?_eq_none hnone
  | case2 patterns m hm ih => exact ih

theorem clean_mergeAll {others patterns : List Pattern} (h : ∀ p ∈ patterns, p.Clean) :
    ∀ p ∈ mergeAll others patterns, p.Clean := by
  fun_induction mergeAll others patterns with
  | case1 patterns hnone => exact h
  | case2 patterns m hm ih => exact ih (Merge.clean_apply hm h)

/-- Merging depends on the other patterns only by the keys of the group that they accept. -/
theorem mergeAll_congr {others others' patterns : List Pattern} (hclean : ∀ p ∈ patterns, p.Clean)
    (hothers : ∀ q ∈ others, q.Clean) (hothers' : ∀ q ∈ others', q.Clean)
    (h : ∀ key, AcceptsSome patterns key → (AcceptsSome others key ↔ AcceptsSome others' key)) :
    mergeAll others patterns = mergeAll others' patterns := by
  fun_induction mergeAll others patterns with
  | case1 patterns hnone =>
    rw [Merge.find?_congr hclean hothers hothers' h] at hnone
    exact (mergeAll_of_find?_eq_none hnone).symm
  | case2 patterns m hm ih =>
    have hsome : Merge.find? others' patterns = some m := by
      rw [← Merge.find?_congr hclean hothers hothers' h, hm]
    rw [mergeAll_of_find?_eq_some hsome]
    -- the keys of the group stay the same
    exact ih (Merge.clean_apply hm hclean) fun key hkey =>
      h key ((Merge.acceptsSome_apply hm key).1 hkey)

/-! ### Merging some of the patterns -/

/-- The first result over a list is the first over a part of it, if that has the element which gives
it and no element gives a result there that gives none on the whole. -/
theorem findSome?_filter_eq_some {α β : Type} {f g : α → Option β} {p : α → Bool} {l : List α} {b : β}
    (h : l.findSome? f = some b) (hnone : ∀ a ∈ l, f a = none → g a = none)
    (hsome : ∀ a ∈ l, f a = some b → p a ∧ g a = some b) : (l.filter p).findSome? g = some b := by
  induction l with
  | nil => cases h
  | cons a rest ih =>
    rw [List.findSome?_cons] at h
    cases hfa : f a with
    | some b' =>
      rw [hfa] at h
      cases h
      obtain ⟨hp, hga⟩ := hsome a List.mem_cons_self hfa
      rw [List.filter_cons_of_pos hp, List.findSome?_cons, hga]
    | none =>
      rw [hfa] at h
      have hrest := ih h (fun c hc => hnone c (List.mem_cons_of_mem a hc))
        fun c hc => hsome c (List.mem_cons_of_mem a hc)
      by_cases hp : p a
      · rw [List.filter_cons_of_pos hp, List.findSome?_cons, hnone a List.mem_cons_self hfa, hrest]
      · rw [List.filter_cons_of_neg hp, hrest]

namespace Merge

variable {others few all : List Pattern} {p : Pattern} {i : Nat} {m : Merge}

theorem overBit?_eq_some_iff (hsub : few ⊆ all) :
    overBit? others few p i = some m ↔ overBit? others all p i = some m ∧ m.upper ∈ few := by
  unfold overBit?
  simp only [Option.ite_none_right_eq_some, Option.some.injEq]
  constructor
  · rintro ⟨⟨hmask, hkey, hupper, hothers⟩, rfl⟩
    exact ⟨⟨⟨hmask, hkey, hsub hupper, hothers⟩, rfl⟩, hupper⟩
  · rintro ⟨⟨⟨hmask, hkey, _, hothers⟩, rfl⟩, hupper⟩
    exact ⟨⟨hmask, hkey, hupper, hothers⟩, rfl⟩

theorem overBit?_eq_none (hsub : few ⊆ all) (h : overBit? others all p i = none) :
    overBit? others few p i = none := by
  refine Option.eq_none_iff_forall_ne_some.2 fun m hm => ?_
  rw [((overBit?_eq_some_iff hsub).1 hm).1] at h
  cases h

theorem find?_eq_none (hsub : few ⊆ all) (h : find? others all = none) :
    find? others few = none := by
  simp only [find?, List.findSome?_eq_none_iff] at h ⊢
  exact fun p hp i hi => overBit?_eq_none hsub (h p (hsub hp) i hi)

/-- The first merge is also the first where some of the patterns are missing, but not these two. -/
theorem find?_filter {keep : Pattern → Bool} (h : find? others all = some m)
    (hlower : keep m.lower) (hupper : keep m.upper) :
    find? others (all.filter keep) = some m := by
  have hsub : all.filter keep ⊆ all := List.filter_subset_self all
  have hmem : m.upper ∈ all.filter keep := List.mem_filter.2 ⟨(mem_of_find? h).2, hupper⟩
  have hstep : ∀ {p}, (List.range 32).findSome? (overBit? others all p) = some m →
      (List.range 32).findSome? (overBit? others (all.filter keep) p) = some m := by
    intro p hp
    have hrange := findSome?_filter_eq_some (p := fun _ => true) hp
      (fun i _ => overBit?_eq_none hsub) fun i _ hi => ⟨rfl, (overBit?_eq_some_iff hsub).2 ⟨hi, hmem⟩⟩
    rwa [List.filter_true] at hrange
  refine findSome?_filter_eq_some h (fun p _ hp => ?_) fun p _ hp => ⟨?_, hstep hp⟩
  · rw [List.findSome?_eq_none_iff] at hp ⊢
    exact fun i hi => overBit?_eq_none hsub (hp i hi)
  · obtain ⟨i, _, hi⟩ := List.exists_of_findSome?_eq_some hp
    rwa [(of_overBit? hi).1] at hlower

end Merge

/-- All keys of the pattern are in a set. -/
def Pattern.Within (p : Pattern) (keys : BitVec 32 → Prop) : Prop := ∀ key, p.accepts key → keys key

/-- What a pattern accepts, one of the merged patterns accepts. -/
theorem exists_mergeAll_covers (others : List Pattern) {patterns : List Pattern} {q : Pattern}
    (hq : q ∈ patterns) :
    ∃ p ∈ mergeAll others patterns, q.Within (p.accepts ·) := by
  fun_induction mergeAll others patterns generalizing q with
  | case1 patterns hnone => exact ⟨q, hq, fun _ => id⟩
  | case2 patterns m hm ih =>
    have hmerged := ih (Ascending.mem_insert.2 (.inl rfl))
    by_cases hql : q = m.lower
    · refine hmerged.imp fun p hp => ⟨hp.1, fun key hkey => hp.2 key ?_⟩
      exact (Merge.accepts_merged hm key).2 (.inl (hql ▸ hkey))
    by_cases hqu : q = m.upper
    · refine hmerged.imp fun p hp => ⟨hp.1, fun key hkey => hp.2 key ?_⟩
      exact (Merge.accepts_merged hm key).2 (.inr (hqu ▸ hkey))
    refine ih (Ascending.mem_insert.2 (.inr ?_))
    exact (List.mem_erase_of_ne hqu).2 ((List.mem_erase_of_ne hql).2 hq)

theorem Separate.filter {patterns : List Pattern} (h : Separate patterns) (keep : Pattern → Bool) :
    Separate (patterns.filter keep) where
  ascending := h.ascending.filter keep
  clean p hp := h.clean p (List.mem_of_mem_filter hp)
  unique p hp q hq := h.unique p (List.mem_of_mem_filter hp) q (List.mem_of_mem_filter hq)

/-- All keys of the pattern are in the set, or none is. -/
def Pattern.Unmixed (p : Pattern) (keys : BitVec 32 → Prop) : Prop :=
  p.Within keys ∨ p.Within (¬keys ·)

open scoped Classical in
/-- If no pattern gets keys both inside a set and outside of it, those with keys inside are merged as
if there were no others. -/
theorem Separate.mergeAll_filter {keys : BitVec 32 → Prop} {patterns : List Pattern}
    (h : Separate patterns) (hunmixed : ∀ p ∈ HexFabric.mergeAll [] patterns, p.Unmixed keys) :
    HexFabric.mergeAll [] (patterns.filter (·.Within keys)) =
      (HexFabric.mergeAll [] patterns).filter (·.Within keys) := by
  fun_induction HexFabric.mergeAll [] patterns with
  | case1 patterns hnone =>
    exact mergeAll_of_find?_eq_none (Merge.find?_eq_none (List.filter_subset_self _) hnone)
  | case2 patterns m hm ih =>
    have happly := Merge.separate_apply hm h
    have hlower : m.lower.Within (m.merged.accepts ·) :=
      fun key hkey => (Merge.accepts_merged hm key).2 (.inl hkey)
    have hupper : m.upper.Within (m.merged.accepts ·) :=
      fun key hkey => (Merge.accepts_merged hm key).2 (.inr hkey)
    have hmem : m.merged ∈ m.apply patterns := Ascending.mem_insert.2 (.inl rfl)
    obtain ⟨p, hp, hcovers⟩ := exists_mergeAll_covers [] hmem
    rw [← ih happly hunmixed]
    rcases hunmixed p hp with hin | hout
    · -- the same merge comes first among the patterns inside
      have hwithin : ∀ q : Pattern, q.Within (m.merged.accepts ·) → q.Within keys :=
        fun q hq key hkey => hin key (hcovers key (hq key hkey))
      have hmerged : m.merged.Within keys := hwithin _ fun _ => id
      have hfind : Merge.find? [] (patterns.filter (·.Within keys)) = some m :=
        Merge.find?_filter hm (decide_eq_true (hwithin _ hlower))
          (decide_eq_true (hwithin _ hupper))
      rw [mergeAll_of_find?_eq_some hfind]
      congr 1
      refine Ascending.eq_of_mem_iff (Merge.separate_apply hfind (h.filter _)).ascending
        (happly.filter _).ascending fun q => ?_
      simp only [List.mem_filter, Merge.mem_apply_iff h.nodup, Merge.mem_apply_iff (h.filter _).nodup,
        decide_eq_true_iff]
      grind
    · -- the merge is of no concern to the patterns inside
      have hnot : ∀ q : Pattern, q.Clean → q.Within (m.merged.accepts ·) → ¬q.Within keys := by
        intro q hclean hq hwithin
        have hself : q.accepts q.key := Pattern.accepts_iff.2 hclean
        exact hout q.key (hcovers _ (hq _ hself)) (hwithin _ hself)
      have hmerged := hnot _ (happly.clean _ hmem) fun _ => id
      have hl := hnot _ (h.clean _ (Merge.mem_of_find? hm).1) hlower
      have hu := hnot _ (h.clean _ (Merge.mem_of_find? hm).2) hupper
      congr 1
      refine Ascending.eq_of_mem_iff (h.filter _).ascending (happly.filter _).ascending fun q => ?_
      simp only [List.mem_filter, Merge.mem_apply_iff h.nodup, decide_eq_true_iff]
      grind

end HexFabric
