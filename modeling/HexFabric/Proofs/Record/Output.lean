import HexFabric.Proofs.Containers
import HexFabric.Proofs.Record.Codec
import HexFabric.Record.Output

/-! Saved outputs. A file to which an output was saved is loaded as that output, whatever follows in
the file: `Output.load_save`. A file that holds only a part of what was saved is refused:
`Output.load_truncated`. -/

namespace HexFabric

/-! ### What the words of a file can hold -/

structure Chip.Storable (c : Chip) : Prop where
  x : c.x < 2 ^ 32
  y : c.y < 2 ^ 32

/-- Quantities are below `2 ^ 64`, and so are the number of resources and the lengths of their
names. -/
structure Resources.Storable (r : Resources) : Prop where
  length : r.entries.length < 2 ^ 64
  name : ∀ e ∈ r.entries, e.1.label.utf8ByteSize < 2 ^ 64
  quantity : ∀ e ∈ r.entries, e.2 < 2 ^ 64

structure Slice.Storable (s : Slice) : Prop where
  vertex : s.vertex < 2 ^ 64
  lo : s.lo < 2 ^ 64
  hi : s.hi < 2 ^ 64
  demand : s.demand.Storable

structure SlicedNet.Storable (n : SlicedNet) : Prop where
  source : n.source < 2 ^ 64
  length : n.sinks.length < 2 ^ 64
  sinks : ∀ s ∈ n.sinks, s < 2 ^ 64
  origin : n.origin < 2 ^ 64

structure KeyLayout.Storable (l : KeyLayout) : Prop where
  xBits : l.xBits < 2 ^ 32
  yBits : l.yBits < 2 ^ 32
  indexBits : l.indexBits < 2 ^ 32

/-- Every number of an output fits its word, and no list is too long to be counted in a word.
Nothing is asked of weights, names, keys, masks and routes. -/
structure Output.Storable (o : Output) : Prop where
  slices_size : o.slices.size < 2 ^ 64
  slices : ∀ s ∈ o.slices, s.Storable
  nets_size : o.nets.size < 2 ^ 64
  nets : ∀ n ∈ o.nets, n.Storable
  chips_size : o.placement.chips.size < 2 ^ 64
  chips : ∀ c ∈ o.placement.chips, c.Storable
  layout : o.keys.layout.Storable
  keys_size : o.keys.keys.size < 2 ^ 64
  tables_length : o.tables.entries.length < 2 ^ 64
  tables : ∀ e ∈ o.tables.entries, e.1.Storable ∧ e.2.length < 2 ^ 64

theorem Resource.rank_lt (r : Resource) : r.rank < 4 := by
  cases r <;> simp [rank]

namespace Codec

/-! ### Parts -/

theorem carries_word {n : Nat} (h : n < 2 ^ 32) : word.Carries n := @carries_fixed 4 n h

theorem carries_longWord {n : Nat} (h : n < 2 ^ 64) : longWord.Carries n := @carries_fixed 8 n h

theorem carries_chip {c : Chip} (h : c.Storable) : chip.Carries c := by
  refine Carries.via ?_ rfl
  exact (carries_word h.x).pair (carries_word h.y)

theorem carries_resource {r : Resource} (h : r.label.utf8ByteSize < 2 ^ 64) :
    resource.Carries r := by
  have hrank : (alternative 4).Carries r.rank :=
    carries_alternative r.rank_lt (by decide)
  cases r with
  | named name => exact hrank.bind ((carries_text h).map Resource.named)
  | _ => exact hrank.bind_nil (.pure _)

theorem carries_resources {r : Resources} (h : r.Storable) : resources.Carries r := by
  refine Carries.via ?_ (SortedMap.ext (SortedMap.entries_ofList r.ascending))
  exact carries_list h.length fun e he =>
    (carries_resource (h.name e he)).pair (carries_longWord (h.quantity e he))

theorem carries_insertionMap {α β : Type} [DecidableEq α] {c : Codec α} {d : Codec β}
    {m : InsertionMap α β} (hlength : m.entries.length < 2 ^ 64)
    (h : ∀ e ∈ m.entries, c.Carries e.1 ∧ d.Carries e.2) : (insertionMap c d).Carries m := by
  refine Carries.via ?_ (InsertionMap.ext (InsertionMap.entries_ofList m.distinct))
  exact carries_list hlength fun e he => (h e he).1.pair (h e he).2

theorem carries_weight (w : Weight) : weight.Carries w := by
  refine Carries.via (carries_longWord w.bits.toNat_lt) ?_
  exact congrArg Weight.mk w.bits.ofNat_toNat

theorem carries_bitWord (w : BitVec 32) : bitWord.Carries w :=
  Carries.via (carries_word w.isLt) (BitVec.ofNat_toNat 32 w)

/-! ### The output -/

theorem carries_slice {s : Slice} (h : s.Storable) : slice.Carries s := by
  refine Carries.via ?_ rfl
  exact (carries_longWord h.vertex).pair ((carries_longWord h.lo).pair
    ((carries_longWord h.hi).pair (carries_resources h.demand)))

theorem carries_slicedNet {n : SlicedNet} (h : n.Storable) : slicedNet.Carries n := by
  have hsinks := carries_list h.length fun s hs => carries_longWord (h.sinks s hs)
  refine Carries.via ?_ rfl
  exact (carries_longWord h.source).pair (hsinks.pair
    ((carries_weight n.weight).pair (carries_longWord h.origin)))

theorem carries_keyLayout {l : KeyLayout} (h : l.Storable) : keyLayout.Carries l := by
  refine Carries.via ?_ rfl
  exact (carries_word h.xBits).pair ((carries_word h.yBits).pair (carries_word h.indexBits))

theorem carries_pattern (p : Pattern) : pattern.Carries p := by
  refine Carries.via ?_ rfl
  exact (carries_bitWord p.key).pair (carries_bitWord p.mask)

theorem carries_routeSet (r : RouteSet) : routeSet.Carries r := by
  refine Carries.via (@carries_fixed 1 _ r.bits.isLt) ?_
  exact congrArg RouteSet.mk (BitVec.ofNat_toNat 8 r.bits)

theorem carries_entry (e : Entry) : entry.Carries e := by
  refine Carries.via ?_ rfl
  exact (carries_pattern e.pattern).pair (carries_routeSet e.route)

theorem carries_output {o : Output} (h : o.Storable) : output.Carries o := by
  have hslices := carries_array h.slices_size fun s hs => carries_slice (h.slices s hs)
  have hnets := carries_array h.nets_size fun n hn => carries_slicedNet (h.nets n hn)
  have hplacement : placement.Carries o.placement :=
    Carries.via (carries_array h.chips_size fun c hc => carries_chip (h.chips c hc)) rfl
  have hkeys : keyAssignment.Carries o.keys := by
    refine Carries.via ?_ rfl
    exact (carries_keyLayout h.layout).pair
      (carries_array h.keys_size fun p _ => carries_pattern p)
  have htables : routingTables.Carries o.tables :=
    carries_insertionMap h.tables_length fun e he =>
      ⟨carries_chip (h.tables e he).1, carries_list (h.tables e he).2 fun e _ => carries_entry e⟩
  refine Carries.via ?_ rfl
  exact hslices.pair (hnets.pair (hplacement.pair (hkeys.pair htables)))

end Codec

/-! ### Files -/

/-- An output with a named resource, a weight that is no number, a route of all bits, and tables that
do not stand by chip. -/
def archived : Output where
  slices := #[⟨0, 0, 300, SortedMap.ofList [(.cores, 17), (.named "µs", 2 ^ 40)]⟩]
  nets := #[⟨0, [0], ⟨0xfff8000000000001⟩, 0⟩]
  placement := ⟨#[⟨1, 0⟩]⟩
  keys := ⟨⟨1, 0, 0⟩, #[⟨1, 1⟩]⟩
  tables := .ofList [(⟨1, 0⟩, [⟨⟨1, 1⟩, ⟨0xff⟩⟩]), (⟨0, 0⟩, [])]

/-- What is saved of `archived`: slices, nets, chips, keys and tables, a line for each. -/
def archivedBytes : Bytes :=
  [1, 0, 0, 0, 0, 0, 0, 0, 0, 0, 0, 0, 0, 0, 0, 0, 0, 44, 1, 0, 0, 0, 0, 0, 0, 2, 0, 17, 0, 0, 0, 0,
    0, 0, 0, 3, 3, 194, 181, 115, 0, 0, 0, 0, 0, 1, 0, 0,
  1, 0, 0, 0, 0, 0, 0, 0, 0, 1, 0, 0, 0, 0, 0, 0, 0, 0, 1, 0, 0, 0, 0, 0, 248, 255, 0, 0, 0, 0, 0, 0,
    0, 0,
  1, 1, 0, 0, 0, 0, 0, 0, 0,
  1, 0, 0, 0, 0, 0, 0, 0, 0, 0, 0, 0, 1, 1, 0, 0, 0, 1, 0, 0, 0,
  2, 1, 0, 0, 0, 0, 0, 0, 0, 1, 1, 0, 0, 0, 1, 0, 0, 0, 255, 0, 0, 0, 0, 0, 0, 0, 0, 0]

theorem save_archived : archived.save true = .ok archivedBytes := by cbv

theorem storable_archived : archived.Storable where
  slices_size := by decide
  slices s hs := by
    rw [Array.eq_of_mem_singleton hs]
    exact ⟨by decide, by decide, by decide, ⟨by decide, by decide, by decide⟩⟩
  nets_size := by decide
  nets n hn := by
    rw [Array.eq_of_mem_singleton hn]
    exact ⟨by decide, by decide, by decide, by decide⟩
  chips_size := by decide
  chips c hc := by
    rw [Array.eq_of_mem_singleton hc]
    exact ⟨by decide, by decide⟩
  layout := ⟨by decide, by decide, by decide⟩
  keys_size := by decide
  tables_length := by decide
  tables e he := by
    have htables : ∀ e ∈ archived.tables.entries,
        e.1.x < 2 ^ 32 ∧ e.1.y < 2 ^ 32 ∧ e.2.length < 2 ^ 64 := by decide
    obtain ⟨hx, hy, hlength⟩ := htables e he
    exact ⟨⟨hx, hy⟩, hlength⟩

namespace Output

/-- What is saved of an output is loaded as that output, whatever follows it in the file. -/
theorem load_save {o : Output} (h : o.Storable) :
    ∃ bytes, o.save true = .ok bytes ∧ ∀ rest, load (some (bytes ++ rest)) = .ok o := by
  refine ⟨Codec.output.write o, rfl, fun rest => ?_⟩
  unfold load
  simp only
  rw [(Codec.carries_output h).reads]

theorem load_save_archived :
    archived.Storable ∧ archived.save true = .ok archivedBytes ∧
    Output.load (some (archivedBytes ++ [1, 2])) = .ok archived := by
  obtain ⟨bytes, hsave, hload⟩ := load_save storable_archived
  cases hsave.symm.trans save_archived
  exact ⟨storable_archived, save_archived, hload [1, 2]⟩

/-- A file that ends before what was saved does is refused, as one whose data ends inside a value. -/
theorem load_truncated {o : Output} (h : o.Storable) {bytes : Bytes}
    (hsave : o.save true = .ok bytes) {part : Bytes} (hpart : part <+: bytes)
    (hshort : part ≠ bytes) :
    ∃ fault : FileFault, load (some part) = .error (.io fault) ∧ fault.IsEnd := by
  cases hsave
  have hstops := (Codec.carries_output h).stops part hpart hshort
  unfold load
  cases hread : Codec.output.read part with
  | ok p => exact (hstops.of_eq_ok hread).elim
  | error fault => exact ⟨fault, by simp only [hread], hstops.of_eq_error hread⟩

/-- A cut inside the name of a resource. -/
theorem load_truncated_archived :
    archived.Storable ∧ archived.save true = .ok archivedBytes ∧
    archivedBytes.take 38 <+: archivedBytes ∧ archivedBytes.take 38 ≠ archivedBytes ∧
    ∃ fault : FileFault,
      load (some (archivedBytes.take 38)) = .error (.io fault) ∧ fault.IsEnd := by
  have hpart : archivedBytes.take 38 <+: archivedBytes := List.take_prefix 38 archivedBytes
  have hshort : archivedBytes.take 38 ≠ archivedBytes := by decide
  exact ⟨storable_archived, save_archived, hpart, hshort,
    load_truncated storable_archived save_archived hpart hshort⟩

end Output

end HexFabric
