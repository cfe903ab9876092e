import HexFabric.Proofs.Machine
import HexFabric.Proofs.Containers

/-! Reservations that meet. What is withheld from every chip can be withheld before or after anything
else with the same outcome, so it does not matter where among the reservations of a graph it
stands: `Graph.usable_reserveAfter`. -/

namespace HexFabric

theorem Resources.remainingOf_comm (r s capacity : Resources) :
    r.remainingOf (s.remainingOf capacity) = s.remainingOf (r.remainingOf capacity) := by
  refine SortedMap.ext ?_
  simp only [remainingOf, SortedMap.mapValues, List.map_map]
  refine List.map_congr_left fun e _ => ?_
  simp only [Function.comp_apply, Nat.sub_right_comm]

namespace InsertionMap

variable {α β γ : Type}

theorem mapValues_comm {m : InsertionMap α β} {f g : β → β} (h : ∀ b, f (g b) = g (f b)) :
    (m.mapValues g).mapValues f = (m.mapValues f).mapValues g := by
  simp [mapValues, h]

variable [DecidableEq α]

@[simp] theorem get?_mapValues (f : β → γ) (m : InsertionMap α β) (k : α) :
    (m.mapValues f).get? k = (m.get? k).map f := by
  obtain ⟨l, _⟩ := m
  simp only [get?, mapValues]
  induction l with
  | nil => rfl
  | cons e rest ih =>
    rw [List.map_cons, lookup_cons_eq_ite, lookup_cons_eq_ite]
    by_cases hk : k = e.1
    · simp [hk]
    · simpa [hk] using ih (List.Pairwise.of_cons ‹_›)

theorem mapValues_insert (f : β → γ) (m : InsertionMap α β) (k : α) (v : β) :
    (m.insert k v).mapValues f = (m.mapValues f).insert k (f v) := by
  obtain ⟨l, _⟩ := m
  simp only [insert, mapValues, mk.injEq]
  induction l with
  | nil => rfl
  | cons e rest ih =>
    obtain ⟨a, b⟩ := e
    simp only [insertEntry, List.map_cons]
    by_cases ha : a = k
    · rw [if_pos ha, if_pos ha]
      rfl
    · rw [if_neg ha, if_neg ha, List.map_cons, ih (List.Pairwise.of_cons ‹_›)]

end InsertionMap

namespace Machine

theorem eq_of_toBlueprint {m n : Machine} (h : m.toBlueprint = n.toBlueprint) : m = n := by
  cases m; cases n; cases h; rfl

theorem resourcesAt_reserveEverywhere (m : Machine) (r : Resources) (c : Chip) :
    (m.reserveEverywhere r).resourcesAt c = r.remainingOf (m.resourcesAt c) := by
  unfold resourcesAt reserveEverywhere
  rw [InsertionMap.get?_mapValues]
  cases m.resourceExceptions.get? c with
  | none => rfl
  | some s => rfl

theorem toBlueprint_reserveAt {m : Machine} {c : Chip} (h : m.Live c) (r : Resources) :
    (m.reserveAt r c).toBlueprint = { m.toBlueprint with
      resourceExceptions := m.resourceExceptions.insert c (r.remainingOf (m.resourcesAt c)) } := by
  rw [reserveAt, dif_pos h]

theorem reserveAt_of_not_live {m : Machine} {c : Chip} (h : ¬m.Live c) (r : Resources) :
    m.reserveAt r c = m :=
  dif_neg h

/-- It is all the same whether something is withheld from every chip before or after something else
is withheld. -/
theorem reserve_reserveEverywhere (m : Machine) (r s : Resources) (c : Option Chip) :
    (m.reserveEverywhere r).reserve s c = (m.reserve s c).reserveEverywhere r := by
  have hcomm := Resources.remainingOf_comm s r
  refine eq_of_toBlueprint ?_
  cases c with
  | none =>
    simp only [reserve, reserveEverywhere]
    rw [hcomm, InsertionMap.mapValues_comm hcomm]
  | some c =>
    change ((m.reserveEverywhere r).reserveAt s c).toBlueprint =
      ((m.reserveAt s c).reserveEverywhere r).toBlueprint
    have hlive : (m.reserveEverywhere r).Live c ↔ m.Live c := Iff.rfl
    by_cases h : m.Live c
    · rw [toBlueprint_reserveAt (hlive.2 h), resourcesAt_reserveEverywhere, hcomm]
      simp only [reserveEverywhere, toBlueprint_reserveAt h, InsertionMap.mapValues_insert]
    · rw [reserveAt_of_not_live h, reserveAt_of_not_live (mt hlive.1 h)]

end Machine

namespace Graph

/-- `g` with one more reservation, after the first `i` of those it has. -/
def reserveAfter (g : Graph) (i : Nat) (r : Reservation) : Graph :=
  { g with reservations := g.reservations.take i ++ r :: g.reservations.drop i }

theorem foldl_reserve_reserveEverywhere (reservations : List Reservation) (m : Machine)
    (r : Resources) :
    reservations.foldl (fun m s => m.reserve s.resources s.location) (m.reserveEverywhere r) =
      (reservations.foldl (fun m s => m.reserve s.resources s.location) m).reserveEverywhere r := by
  induction reservations generalizing m with
  | nil => rfl
  | cons s rest ih => rw [List.foldl_cons, List.foldl_cons, m.reserve_reserveEverywhere, ih]

/-- What a graph withholds from every chip might as well have been withheld from the machine. -/
theorem usable_reserveAfter (g : Graph) (m : Machine) (i : Nat) (r : Resources) :
    (g.reserveAfter i ⟨r, none⟩).usable m = g.usable (m.reserveEverywhere r) := by
  change List.foldl _ m (g.reservations.take i ++ ⟨r, none⟩ :: g.reservations.drop i) = _
  rw [List.foldl_append, List.foldl_cons, Machine.reserve, ← foldl_reserve_reserveEverywhere,
    ← List.foldl_append, List.take_append_drop]
  rfl

end Graph

end HexFabric
