/-! A map listed in the order in which each key was first inserted. A later value of a key takes the
place of the earlier one. -/

namespace HexFabric

/-- Entries in the order in which each key was first inserted. -/
structure InsertionMap (α β : Type) where
  entries : List (α × β)
  distinct : (entries.map (·.1)).Nodup

namespace InsertionMap

variable {α β γ : Type}

def empty : InsertionMap α β := ⟨[], List.nodup_nil⟩

def keys (m : InsertionMap α β) : List α := m.entries.map (·.1)

/-- Replaces each value, keeping the keys. -/
def mapValues (f : β → γ) (m : InsertionMap α β) : InsertionMap α γ where
  entries := m.entries.map fun e => (e.1, f e.2)
  distinct := by simpa [Function.comp_def] using m.distinct

variable [DecidableEq α]

def get? (m : InsertionMap α β) (k : α) : Option β := m.entries.lookup k

/-- Replaces the value of `k`, or adds the entry at the end. -/
def insertEntry (k : α) (v : β) : List (α × β) → List (α × β)
  | [] => [(k, v)]
  | (a, b) :: rest => if a = k then (a, v) :: rest else (a, b) :: insertEntry k v rest

theorem keys_insertEntry (k : α) (v : β) (l : List (α × β)) :
    (insertEntry k v l).map (·.1) =
      if k ∈ l.map (·.1) then l.map (·.1) else l.map (·.1) ++ [k] := by
  induction l with
  | nil => simp [insertEntry]
  | cons e rest ih =>
    obtain ⟨a, b⟩ := e
    by_cases h : a = k
    · simp [insertEntry, h]
    · simp only [insertEntry, h, if_false, List.map_cons, ih, List.mem_cons,
        show ¬k = a from fun h' => h h'.symm, false_or]
      split <;> rfl

def insert (m : InsertionMap α β) (k : α) (v : β) : InsertionMap α β where
  entries := insertEntry k v m.entries
  distinct := by
    rw [keys_insertEntry]
    split
    · exact m.distinct
    · refine List.nodup_append.2 ⟨m.distinct, by simp, fun b hb c hc hbc => ?_⟩
      simp only [List.mem_singleton] at hc
      exact ‹¬k ∈ m.entries.map (·.1)› (hc ▸ hbc ▸ hb)

theorem mem_insertEntry {k : α} {v : β} {l : List (α × β)} {e : α × β}
    (h : e ∈ insertEntry k v l) : e = (k, v) ∨ e ∈ l := by
  induction l with
  | nil => simpa [insertEntry] using h
  | cons p rest ih =>
    obtain ⟨a, b⟩ := p
    unfold insertEntry at h
    split at h
    · rename_i hk
      rcases List.mem_cons.1 h with rfl | h
      · exact .inl (by rw [hk])
      · exact .inr (List.mem_cons_of_mem _ h)
    · rcases List.mem_cons.1 h with rfl | h
      · exact .inr (by simp)
      · exact (ih h).imp_right (List.mem_cons_of_mem _)

theorem mem_of_get? {m : InsertionMap α β} {k : α} {v : β} (h : m.get? k = some v) :
    (k, v) ∈ m.entries := by
  obtain ⟨l, _⟩ := m
  simp only [get?] at h ⊢
  induction l with
  | nil => simp at h
  | cons p rest ih =>
    obtain ⟨a, b⟩ := p
    rw [List.lookup_cons] at h
    split at h
    · rename_i hk
      rw [eq_of_beq hk, Option.some.inj h]
      exact List.mem_cons_self
    · exact List.mem_cons_of_mem _ (ih (by simp_all) h)

/-- The map of a list of entries, in which a later entry replaces an earlier one of its key. -/
def ofList (l : List (α × β)) : InsertionMap α β := l.foldl (fun m e => m.insert e.1 e.2) empty

/-- `m` and `n` have the same entries, in whatever order. -/
def sameEntries [DecidableEq β] (m n : InsertionMap α β) : Bool :=
  m.entries.all (· ∈ n.entries) && n.entries.all (· ∈ m.entries)

end InsertionMap

end HexFabric
