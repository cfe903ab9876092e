import HexFabric.Route.Net
import HexFabric.Proofs.Partition
import HexFabric.Proofs.Placement.Valid
import HexFabric.Proofs.Route.Tree

/-! Routing all nets of a placed graph. Each net ends up with a tree that serves the destinations of
its sinks. -/

namespace HexFabric

namespace Graph

variable {g : Graph} {part : Partitioning} {p : Placement} {m : Machine}

/-- Defects aside, an outcome is settled. -/
theorem returns_settled {α : Type} {x : Outcome α} {Q : α → Prop} (h : Ends x Failure.Expected Q) :
    Returns (settled x) fun r => Ends r (fun e => (Failure.error e).Expected) Q := by
  cases x with
  | ok a => exact h
  | error f =>
    cases f with
    | error e => exact h
    | defect d => exact h.elim

theorem returns_destination (hp : p.Placed part m) {s : Nat} (hs : s < part.slices.size) :
    Returns (g.destination part p s) fun d => g.destination part p s = .ok d ∧ m.Live d.chip := by
  refine Ends.and_eq ?_
  unfold destination
  refine Ends.bind (hp.returns_chipOf hs) fun c hc => ?_
  refine Ends.bind (returns_fetch hs) fun slice _ => ?_
  cases g.endpoint? slice.vertex with
  | none => exact .pure hc.2
  | some l => exact .pure hc.2

theorem returns_destinations (hp : p.Placed part m) {n : SlicedNet}
    (hn : ∀ s ∈ n.sinks, s < part.slices.size) :
    Returns (g.destinations part p n) fun ds => (∀ d ∈ ds.elems, m.Live d.chip) ∧
      ∀ d, d ∈ ds.elems ↔ ∃ s ∈ n.sinks, g.destination part p s = .ok d := by
  refine Ends.bind (Ends.mapM fun s hs => returns_destination hp (hn s hs)) fun ds hds => .pure ?_
  simp only [InsertionSet.mem_elems_ofList]
  refine ⟨fun d hd => ?_, fun d => ⟨fun hd => ?_, ?_⟩⟩
  · obtain ⟨_, _, _, hlive⟩ := forall_right hds hd
    exact hlive
  · obtain ⟨s, hs, heq, _⟩ := forall_right hds hd
    exact ⟨s, hs, heq⟩
  · rintro ⟨s, hs, heq⟩
    obtain ⟨i, hi⟩ := List.mem_iff_getElem?.1 hs
    obtain ⟨d', hd', heq', _⟩ := exists_right hds hi
    rw [heq] at heq'
    cases heq'
    exact List.mem_of_getElem? hd'

/-- The tree of a net goes from the chip of its source to where its sinks are. -/
def Routed (g : Graph) (part : Partitioning) (p : Placement) (m : Machine) (n : SlicedNet)
    (t : RoutingTree) : Prop :=
  ∃ c ds, p.chips[n.source]? = some c ∧ t.Serves m c ds ∧
    ∀ d, d ∈ ds ↔ ∃ s ∈ n.sinks, g.destination part p s = .ok d

/-- Tree number `i` is that of net number `i`. -/
def AllRouted (g : Graph) (part : Partitioning) (p : Placement) (m : Machine)
    (trees : List RoutingTree) : Prop :=
  List.Forall₂ (fun e t => t.net = e.2 ∧ g.Routed part p m e.1 t) part.nets.toList.zipIdx trees

/-- On a machine whose chips a word can count, routing ends in an error of the input or in a tree for
each net. -/
theorem ends_route (hpart : part.Sound g) (hsize : m.size < 2 ^ 32) (hp : p.Placed part m) :
    Ends (g.route part p m) Failure.Expected (g.AllRouted part p m) := by
  have hnet : ∀ e ∈ part.nets.toList.zipIdx, Returns (settled (g.routeOne part p m e.1 e.2))
      fun r => Ends r (fun e => (Failure.error e).Expected)
        fun t => t.net = e.2 ∧ g.Routed part p m e.1 t := by
    rintro ⟨n, i⟩ he
    have hn : n ∈ part.nets := Array.mem_toList_iff.1 (List.fst_mem_of_mem_zipIdx he)
    refine returns_settled ?_
    refine Ends.bind (hp.returns_chipOf (hpart.source n hn)).lift fun c hc => ?_
    refine Ends.bind (returns_destinations hp (hpart.sinks n hn)).lift fun ds hds => ?_
    refine (Machine.ends_routeNet hsize hc.2.1 (fun d hd => (hds.1 d hd).1) i).imp
      (fun _ => Machine.OutOfReach.expected) ?_
    rintro t ⟨hnet, hserves, _⟩
    exact ⟨hnet, c, ds.elems, hc.1, hserves, hds.2⟩
  exact Ends.bind (Returns.lift (Ends.mapM hnet)) fun results hresults =>
    .liftError (Ends.sequence hresults)

end Graph

end HexFabric
