import HexFabric.Proofs.Machine.Reservation
import HexFabric.Proofs.Pipeline

/-! Watching over chips. A graph comes into a run with what it reserves only through the machine that
is left to use, so keeping a core of every chip free by an option is the same as by a reservation of
the graph: `Graph.mapOnto_reserveMonitor`. -/

namespace HexFabric.Graph

variable {g : Graph} {m n : Machine} {reservations : List Reservation} {part : Partitioning}

/-- The same graph with other reservations. -/
def withReservations (g : Graph) (reservations : List Reservation) : Graph :=
  { g with reservations }

/-! ### Stages that only see the usable machine -/

section Placement

variable (h : (g.withReservations reservations).usable m = g.usable n)

include h

theorem firstFit_withReservations :
    (g.withReservations reservations).firstFit part m = g.firstFit part n := by
  unfold firstFit
  rw [h]
  rfl

theorem anneal_withReservations [Build] (config : AnnealingConfig) (clock : Nat → Nat) :
    (g.withReservations reservations).anneal part m config clock = g.anneal part n config clock := by
  unfold anneal
  rw [firstFit_withReservations h, h]
  rfl

theorem place_withReservations [Build] (s : Strategy) (clock : Nat → Nat) :
    s.place (g.withReservations reservations) part m clock = s.place g part n clock := by
  unfold Strategy.place
  simp only [h, firstFit_withReservations h, anneal_withReservations h]

end Placement

/-! ### One more reservation -/

section Reserve

variable (g : Graph) (m : Machine) (i : Nat) (r : Resources)

/-- What is withheld from every chip makes no fault. -/
theorem fault?_reserveAfter :
    (g.reserveAfter i ⟨r, none⟩).fault? m = g.fault? (m.reserveEverywhere r) := by
  have hreservations : (g.reserveAfter i ⟨r, none⟩).reservations.findSome? (reservationFault? m) =
      g.reservations.findSome? (reservationFault? m) := by
    conv_rhs => rw [← List.take_append_drop i g.reservations, List.findSome?_append]
    exact List.findSome?_append
  unfold fault?
  rw [hreservations]
  rfl

theorem partition_reserveAfter :
    (g.reserveAfter i ⟨r, none⟩).partition m = g.partition (m.reserveEverywhere r) := by
  unfold partition validate
  rw [fault?_reserveAfter, usable_reserveAfter]
  rfl

end Reserve

/-- A run that keeps a core of every chip free is the run that does not, with the same readings of the
clock, of the same graph with one more reservation: of a core of every chip, wherever it stands among
the others. -/
theorem mapOnto_reserveMonitor [Build] (g : Graph) (m : Machine) (config : Config) (clock : Nat → Nat)
    (i : Nat) :
    g.mapOnto m { config with reserveMonitor := true } clock =
      (g.reserveAfter i ⟨monitorCore, none⟩).mapOnto m { config with reserveMonitor := false }
        clock := by
  have hplace : ∀ part, config.strategy.place (g.reserveAfter i ⟨monitorCore, none⟩) part m clock =
      config.strategy.place g part (m.reserveEverywhere monitorCore) clock :=
    fun part => place_withReservations (usable_reserveAfter g m i monitorCore) config.strategy clock
  unfold mapOnto
  dsimp only
  rw [if_pos rfl, if_neg Bool.false_ne_true, partition_reserveAfter]
  simp only [hplace]
  -- keys are given, and nets are routed, without a look at reservations
  rfl

end HexFabric.Graph
