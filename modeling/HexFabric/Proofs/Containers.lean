import HexFabric.InsertionMap
import HexFabric.InsertionSet
import HexFabric.SortedMap
import Mathlib.Data.List.Sort

/-! What the maps and sets hold: `get?` after each change, and `get?` as membership of an entry. -/

namespace HexFabric

theorem lookup_cons_eq_ite {α β : Type} [DecidableEq α] (e : α × β) (l : List (α × β)) (k : α) :
    (e :: l).lookup k = if k = e.1 then some e.2 else l.lookup k := by
  rw [List.lookup_cons]
  by_cases h : k = e.1
  · simp [h]
  · simp [h, beq_eq_false_iff_ne.2 h]

/-- In a list of entries with distinct keys, the value looked up is the one listed. -/
theorem lookup_eq_some_iff_mem {α β : Type} [DecidableEq α] {l : List (α × β)} {k : α} {v : β}
    (h : (l.map (·.1)).Nodup) : l.lookup k = some v ↔ (k, v) ∈ l := by
  induction l with
  | nil => simp
  | cons e rest ih =>
    obtain ⟨a, b⟩ := e
    rw [List.map_cons, List.nodup_cons] at h
    rw [lookup_cons_eq_ite, List.mem_cons, Prod.mk.injEq]
    by_cases hk : k = a
    · have hnew : (k, v) ∉ rest := fun hm => h.1 (List.mem_map.2 ⟨(k, v), hm, hk⟩)
      simp [hk, hk ▸ hnew, eq_comm]
    · simpa [hk] using ih h.2

theorem Ascending.insert_of_lt {α : Type} [LT α] [DecidableLT α] [StrictLinear α] {a : α}
    {bs : List α} (h : ∀ b ∈ bs, b < a) : Ascending.insert a bs = bs ++ [a] := by
  induction bs with
  | nil => rfl
  | cons b rest ih =>
    have hb : b < a := h b List.mem_cons_self
    rw [Ascending.insert, if_neg (StrictLinear.asymm hb), if_pos hb,
      ih fun c hc => h c (List.mem_cons_of_mem b hc), List.cons_append]

/-- A list that rises in `f` is determined by what is in it. -/
theorem Ascending.eq_of_subset {α β : Type} [LT β] [StrictLinear β] {f : α → β} {as bs : List α}
    (ha : as.Pairwise fun a b => f a < f b) (hb : bs.Pairwise fun a b => f a < f b)
    (hab : as ⊆ bs) (hba : bs ⊆ as) : as = bs := by
  have : Std.Irrefl fun a b => f a < f b := ⟨fun a => StrictLinear.irrefl (f a)⟩
  have : Std.Antisymm fun a b => f a < f b :=
    ⟨fun _ _ hab hba => absurd hba (StrictLinear.asymm hab)⟩
  exact List.Subset.antisymm_of_pairwise ha hb hab hba

theorem Ascending.eq_of_mem_iff {α : Type} [LT α] [StrictLinear α] {as bs : List α}
    (ha : as.Pairwise (· < ·)) (hb : bs.Pairwise (· < ·)) (h : ∀ a, a ∈ as ↔ a ∈ bs) : as = bs :=
  Ascending.eq_of_subset ha hb (fun a => (h a).1) fun a => (h a).2

/-- In an ascending list, what is below an element stands before it. -/
theorem Ascending.mem_before {α β : Type} [LT β] [StrictLinear β] {f : α → β}
    {before after : List α} {a b : α} (h : (before ++ b :: after).Pairwise fun a b => f a < f b)
    (ha : a ∈ before ++ b :: after) (hlt : f a < f b) : a ∈ before := by
  rw [List.pairwise_append, List.pairwise_cons] at h
  rw [List.mem_append, List.mem_cons] at ha
  rcases ha with hbefore | rfl | hafter
  · exact hbefore
  · exact absurd hlt (StrictLinear.irrefl _)
  · exact absurd hlt (StrictLinear.asymm (h.2.1.1 a hafter))

/-- An element of an ascending list below the first that passes a test does not pass it. -/
theorem Ascending.not_of_lt_find? {α β : Type} [LT β] [StrictLinear β] {f : α → β} {l : List α}
    {p : α → Bool} {a b : α} (hl : l.Pairwise fun a b => f a < f b) (hfind : l.find? p = some b)
    (ha : a ∈ l) (hlt : f a < f b) : ¬p a := by
  obtain ⟨_, before, after, rfl, hbefore⟩ := List.find?_eq_some_iff_append.1 hfind
  simpa using hbefore a (Ascending.mem_before hl ha hlt)

namespace InsertionMap

variable {α β γ : Type}

theorem ext {m n : InsertionMap α β} (h : m.entries = n.entries) : m = n := by
  cases m; cases n; cases h; rfl

variable [DecidableEq α]

theorem get?_eq_some_iff {m : InsertionMap α β} {k : α} {v : β} :
    m.get? k = some v ↔ (k, v) ∈ m.entries :=
  lookup_eq_some_iff_mem m.distinct

@[simp] theorem get?_empty (k : α) : (empty : InsertionMap α β).get? k = none := rfl

theorem lookup_insertEntry (k : α) (v : β) (l : List (α × β)) (k' : α) :
    (insertEntry k v l).lookup k' = if k' = k then some v else l.lookup k' := by
  induction l with
  | nil => rw [insertEntry, lookup_cons_eq_ite]
  | cons e rest ih =>
    obtain ⟨a, b⟩ := e
    unfold insertEntry
    by_cases ha : a = k
    · rw [if_pos ha, lookup_cons_eq_ite, lookup_cons_eq_ite, ha]
      split <;> rfl
    · rw [if_neg ha, lookup_cons_eq_ite, lookup_cons_eq_ite, ih]
      by_cases hk : k' = a
      · simp [hk, ha]
      · simp [hk]

@[simp] theorem get?_insert (m : InsertionMap α β) (k : α) (v : β) (k' : α) :
    (m.insert k v).get? k' = if k' = k then some v else m.get? k' :=
  lookup_insertEntry k v m.entries k'

theorem insertEntry_append {k : α} {v : β} {l : List (α × β)} (h : k ∉ l.map (·.1))
    (l' : List (α × β)) : insertEntry k v (l ++ l') = l ++ insertEntry k v l' := by
  induction l with
  | nil => rfl
  | cons e rest ih =>
    obtain ⟨a, b⟩ := e
    rw [List.map_cons, List.mem_cons, not_or] at h
    rw [List.cons_append, insertEntry, if_neg (Ne.symm h.1), ih h.2, List.cons_append]

theorem insertEntry_of_notMem {k : α} {v : β} {l : List (α × β)} (h : k ∉ l.map (·.1)) :
    insertEntry k v l = l ++ [(k, v)] := by
  simpa [insertEntry] using insertEntry_append (v := v) h []

/-- A list of entries with distinct keys is the map made of it. -/
theorem entries_ofList {l : List (α × β)} (h : (l.map (·.1)).Nodup) : (ofList l).entries = l := by
  suffices ∀ (l : List (α × β)) (m : InsertionMap α β), ((m.entries ++ l).map (·.1)).Nodup →
      (l.foldl (fun m e => m.insert e.1 e.2) m).entries = m.entries ++ l from this l empty h
  intro l
  induction l with
  | nil => simp
  | cons e rest ih =>
    intro m hm
    have hnew : e.1 ∉ m.entries.map (·.1) := by
      rw [List.map_append, List.map_cons, List.nodup_append] at hm
      exact fun he => hm.2.2 e.1 he e.1 List.mem_cons_self rfl
    have hentries : (m.insert e.1 e.2).entries = m.entries ++ [e] := insertEntry_of_notMem hnew
    rw [List.foldl_cons, ih, hentries, List.append_assoc, List.singleton_append]
    rw [hentries, List.append_assoc, List.singleton_append]
    exact hm

end InsertionMap

namespace InsertionSet

variable {α : Type} [DecidableEq α]

@[simp] theorem mem_elems_ofList {as : List α} {a : α} : a ∈ (ofList as).elems ↔ a ∈ as := by
  suffices ∀ (as : List α) (s : InsertionSet α), a ∈ as.foldl insert s ↔ a ∈ s ∨ a ∈ as from
    (this as empty).trans (or_iff_right List.not_mem_nil)
  intro as
  induction as with
  | nil => simp
  | cons b rest ih =>
    intro s
    rw [List.foldl_cons, ih, mem_insert, List.mem_cons, or_assoc]

theorem find?_elems_ofList {as : List α} (p : α → Bool) :
    (ofList as).elems.find? p = as.find? p := by
  suffices ∀ (as : List α) (s : InsertionSet α),
      (as.foldl insert s).elems.find? p = (s.elems ++ as).find? p from this as empty
  intro as
  induction as with
  | nil => simp
  | cons b rest ih =>
    intro s
    rw [List.foldl_cons, ih]
    by_cases hb : b ∈ s.elems
    · rw [insert, dif_pos hb, List.find?_append, List.find?_append]
      cases hfind : s.elems.find? p with
      | some a => rfl
      | none => rw [List.find?_cons_of_neg (List.find?_eq_none.1 hfind b hb)]
    · rw [insert, dif_neg hb, List.append_assoc, List.singleton_append]

end InsertionSet

namespace SortedMap

variable {α β γ : Type} [LT α] [DecidableEq α] [StrictLinear α]

omit [DecidableEq α] in
theorem nodup_keys (m : SortedMap α β) : (m.entries.map (·.1)).Nodup := by
  refine List.pairwise_map.2 (m.ascending.imp fun {a b} h heq => ?_)
  rw [heq] at h
  exact StrictLinear.irrefl b.1 h

theorem get?_eq_some_iff {m : SortedMap α β} {k : α} {v : β} :
    m.get? k = some v ↔ (k, v) ∈ m.entries :=
  lookup_eq_some_iff_mem m.nodup_keys

theorem mem_keys_iff {m : SortedMap α β} {k : α} : k ∈ m.keys ↔ (m.get? k).isSome := by
  rw [Option.isSome_iff_exists, keys, List.mem_map]
  constructor
  · rintro ⟨e, he, rfl⟩
    exact ⟨e.2, get?_eq_some_iff.2 he⟩
  · rintro ⟨v, hv⟩
    exact ⟨(k, v), get?_eq_some_iff.1 hv, rfl⟩

omit [StrictLinear α] in
@[simp] theorem get?_empty (k : α) : (empty : SortedMap α β).get? k = none := rfl

omit [StrictLinear α] in
@[simp] theorem get?_mapValues (f : α → β → γ) (m : SortedMap α β) (k : α) :
    (m.mapValues f).get? k = (m.get? k).map (f k) := by
  obtain ⟨l, _⟩ := m
  simp only [get?, mapValues]
  induction l with
  | nil => rfl
  | cons e rest ih =>
    rw [List.map_cons, lookup_cons_eq_ite, lookup_cons_eq_ite]
    by_cases hk : k = e.1
    · simp [hk]
    · simpa [hk] using ih (List.Pairwise.of_cons ‹_›)

variable [DecidableLT α]

theorem lookup_alterEntries (k : α) (f : Option β → β) {l : List (α × β)}
    (h : l.Pairwise (·.1 < ·.1)) (k' : α) :
    (alterEntries k f l).lookup k' = if k' = k then some (f (l.lookup k)) else l.lookup k' := by
  induction l with
  | nil => rw [alterEntries, lookup_cons_eq_ite, List.lookup_nil, List.lookup_nil]
  | cons e rest ih =>
    obtain ⟨a, b⟩ := e
    obtain ⟨ha, hrest⟩ := List.pairwise_cons.1 h
    unfold alterEntries
    by_cases hka : k < a
    · have hnone : ((a, b) :: rest).lookup k = none := by
        rw [List.lookup_eq_none_iff]
        intro e he
        have hlt : k < e.1 := by
          rcases List.mem_cons.1 he with rfl | he
          · exact hka
          · exact StrictLinear.trans hka (ha e he)
        have hne : k ≠ e.1 := fun heq => StrictLinear.irrefl e.1 (by rwa [heq] at hlt)
        exact bne_iff_ne.2 hne
      rw [if_pos hka, lookup_cons_eq_ite, hnone]
    · by_cases hak : a < k
      · have hne : k ≠ a := fun h => StrictLinear.irrefl a (h ▸ hak)
        rw [if_neg hka, if_pos hak, lookup_cons_eq_ite, ih hrest, lookup_cons_eq_ite,
          lookup_cons_eq_ite, if_neg hne]
        by_cases hk : k' = a
        · simp [hk, hne.symm]
        · simp [hk]
      · have hk : k = a := StrictLinear.connected hka hak
        rw [if_neg hka, if_neg hak, lookup_cons_eq_ite, lookup_cons_eq_ite, lookup_cons_eq_ite,
          if_pos hk, hk]
        split <;> rfl

@[simp] theorem get?_alter (m : SortedMap α β) (k : α) (f : Option β → β) (k' : α) :
    (m.alter k f).get? k' = if k' = k then some (f (m.get? k)) else m.get? k' :=
  lookup_alterEntries k f m.ascending k'

@[simp] theorem get?_insert (m : SortedMap α β) (k : α) (v : β) (k' : α) :
    (m.insert k v).get? k' = if k' = k then some v else m.get? k' :=
  get?_alter m k _ k'

theorem mem_keys_alter (m : SortedMap α β) (k : α) (f : Option β → β) (k' : α) :
    k' ∈ (m.alter k f).keys ↔ k' = k ∨ k' ∈ m.keys := by
  rw [mem_keys_iff, mem_keys_iff, get?_alter]
  split <;> simp [*]

omit [DecidableEq α] in
theorem alterEntries_of_lt {k : α} {f : Option β → β} {l : List (α × β)} (h : ∀ e ∈ l, e.1 < k) :
    alterEntries k f l = l ++ [(k, f none)] := by
  induction l with
  | nil => rfl
  | cons e rest ih =>
    obtain ⟨a, b⟩ := e
    have ha : a < k := h (a, b) List.mem_cons_self
    rw [alterEntries, if_neg (StrictLinear.asymm ha), if_pos ha,
      ih fun e he => h e (List.mem_cons_of_mem _ he), List.cons_append]

omit [DecidableEq α] in
/-- A list of entries with ascending keys is the map made of it. -/
theorem entries_ofList {l : List (α × β)} (h : l.Pairwise (·.1 < ·.1)) :
    (ofList l).entries = l := by
  suffices ∀ (l : List (α × β)) (m : SortedMap α β), (m.entries ++ l).Pairwise (·.1 < ·.1) →
      (l.foldl (fun m e => m.insert e.1 e.2) m).entries = m.entries ++ l from this l empty h
  intro l
  induction l with
  | nil => simp
  | cons e rest ih =>
    intro m hm
    have hlast : ∀ e' ∈ m.entries, e'.1 < e.1 :=
      fun e' he' => (List.pairwise_append.1 hm).2.2 e' he' e List.mem_cons_self
    have hentries : (m.insert e.1 e.2).entries = m.entries ++ [e] := alterEntries_of_lt hlast
    rw [List.foldl_cons, ih, hentries, List.append_assoc, List.singleton_append]
    rw [hentries, List.append_assoc, List.singleton_append]
    exact hm

end SortedMap

end HexFabric
