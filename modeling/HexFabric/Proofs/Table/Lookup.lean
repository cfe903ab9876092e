import HexFabric.Table.Entry
import HexFabric.Proofs.Key.Pattern

/-! What a table does with a key, whatever the order of its entries. A table in which no two entries
of different routes accept the same key gives a key the route of any entry that accepts it, so two
such tables that offer the same routes are interchangeable. -/

namespace HexFabric

/-- Some entry of route `r` accepts the key. -/
def Offers (table : List Entry) (key : BitVec 32) (r : RouteSet) : Prop :=
  ∃ e ∈ table, e.route = r ∧ e.pattern.accepts key

/-- No key is accepted by entries of different routes. -/
def Unambiguous (table : List Entry) : Prop :=
  ∀ a ∈ table, ∀ b ∈ table, a.route ≠ b.route → ∀ key,
    ¬(a.pattern.accepts key ∧ b.pattern.accepts key)

variable {s t : List Entry} {key : BitVec 32} {r : RouteSet}

theorem Offers.perm (h : s.Perm t) : Offers s key r ↔ Offers t key r := by
  simp only [Offers, h.mem_iff]

theorem offers_of_lookup (h : lookup t key = some r) : Offers t key r := by
  obtain ⟨e, he, rfl⟩ := Option.map_eq_some_iff.1 h
  exact ⟨e, List.mem_of_find?_eq_some he, rfl, by simpa using List.find?_some he⟩

theorem lookup_eq_none_iff : lookup t key = none ↔ ∀ r, ¬Offers t key r := by
  rw [lookup, Option.map_eq_none_iff, List.find?_eq_none]
  exact ⟨fun h r ⟨e, he, _, hk⟩ => h e he hk, fun h e he hk => h e.route ⟨e, he, rfl, hk⟩⟩

theorem Unambiguous.route_unique (h : Unambiguous t) {r' : RouteSet} (hr : Offers t key r)
    (hr' : Offers t key r') : r = r' := by
  obtain ⟨a, ha, rfl, hak⟩ := hr
  obtain ⟨b, hb, rfl, hbk⟩ := hr'
  exact Decidable.byContradiction fun hne => h a ha b hb hne key ⟨hak, hbk⟩

theorem Unambiguous.lookup_eq_some_iff (h : Unambiguous t) :
    lookup t key = some r ↔ Offers t key r := by
  refine ⟨offers_of_lookup, fun hr => ?_⟩
  cases hl : lookup t key with
  | none => exact absurd hr (lookup_eq_none_iff.1 hl r)
  | some r' => rw [h.route_unique (offers_of_lookup hl) hr]

theorem Unambiguous.of_offers (h : Unambiguous s)
    (hst : ∀ key r, Offers t key r → Offers s key r) : Unambiguous t :=
  fun a ha b hb hne key ⟨hak, hbk⟩ => hne <|
    h.route_unique (hst key a.route ⟨a, ha, rfl, hak⟩) (hst key b.route ⟨b, hb, rfl, hbk⟩)

theorem Unambiguous.mono (h : Unambiguous t) (hsub : s ⊆ t) : Unambiguous s :=
  fun a ha b hb => h a (hsub ha) b (hsub hb)

/-- Tables that offer the same routes look up alike, if one of them is unambiguous. -/
theorem Unambiguous.lookup_congr (h : Unambiguous s)
    (hst : ∀ key r, Offers t key r ↔ Offers s key r) (key : BitVec 32) :
    lookup t key = lookup s key := by
  have ht : Unambiguous t := h.of_offers fun key r => (hst key r).1
  refine Option.ext fun r => ?_
  rw [ht.lookup_eq_some_iff, h.lookup_eq_some_iff, hst]

end HexFabric
