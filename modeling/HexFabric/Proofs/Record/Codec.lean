import HexFabric.Proofs.Outcome
import HexFabric.Record.Codec
import Mathlib

/-! What a reader makes of written data. `Reader.Takes` says that a value is taken off the front of
what was written of it, whatever follows, and that a part of what was written is not enough. Readers
put together take what is written one after the other: `Reader.Takes.bind`. -/

namespace HexFabric

/-- The data ends inside a value. -/
def FileFault.IsEnd (f : FileFault) : Prop := f = .endOfData ∨ f = .endOfText

variable {α β : Type}

/-- A reader takes `a`, and no more, off data that begins with `written`; data that ends before
`written` does is a fault. -/
structure Reader.Takes (r : Reader α) (written : Bytes) (a : α) : Prop where
  reads : ∀ rest, r (written ++ rest) = .ok (a, rest)
  stops : ∀ part, part <+: written → part ≠ written →
    Ends (r part) FileFault.IsEnd fun _ => False

/-- What is written of `a` is read as `a`. -/
abbrev Codec.Carries (c : Codec α) (a : α) : Prop := Reader.Takes c.read (c.write a) a

/-- What two lists begin with, the one after the other, is part of the first, or all of the first and
part of the second. -/
theorem prefix_append_cases {p w w' : List α} (h : p <+: w ++ w') :
    p <+: w ∨ ∃ q, p = w ++ q ∧ q <+: w' := by
  obtain ⟨t, ht⟩ := h
  rcases List.append_eq_append_iff.1 ht with ⟨q, hw, _⟩ | ⟨q, hp, hw'⟩
  · exact .inl ⟨q, hw.symm⟩
  · exact .inr ⟨q, hp, t, hw'.symm⟩

namespace Reader.Takes

variable {r : Reader α} {f : α → Reader β} {w w' : Bytes} {a : α} {b : β}

theorem pure (a : α) : Takes (Pure.pure a) [] a where
  reads _ := rfl
  stops _ hpart hne := absurd (List.prefix_nil.1 hpart) hne

theorem bind (hr : r.Takes w a) (hf : (f a).Takes w' b) : Takes (r >>= f) (w ++ w') b where
  reads rest := by
    change (r (w ++ w' ++ rest) >>= fun p => f p.1 p.2) = _
    rw [List.append_assoc, hr.reads]
    exact hf.reads rest
  stops part hpart hne := by
    change Ends (r part >>= fun p => f p.1 p.2) _ _
    rcases prefix_append_cases hpart with hshort | ⟨part', rfl, hpart'⟩
    · by_cases heq : part = w
      · -- all of `w` and nothing of `w'`, which is not empty
        subst heq
        have hread := hr.reads []
        rw [List.append_nil] at hread
        rw [hread]
        refine hf.stops [] List.nil_prefix fun hnil => hne ?_
        rw [← hnil, List.append_nil]
      · exact (hr.stops part hshort heq).bind fun _ h => h.elim
    · rw [hr.reads]
      exact hf.stops part' hpart' fun heq => hne (heq ▸ rfl)

/-- The last reader may take nothing. -/
theorem bind_nil (hr : r.Takes w a) (hf : (f a).Takes [] b) : Takes (r >>= f) w b := by
  have h := hr.bind hf
  rwa [List.append_nil] at h

theorem map (hr : r.Takes w a) (g : α → β) : Takes (do return g (← r)) w (g a) :=
  hr.bind_nil (.pure (g a))

end Reader.Takes

namespace Codec

open Reader

theorem takes_readByte (b : UInt8) : readByte.Takes [b] b where
  reads _ := rfl
  stops part hpart hne := by
    rcases List.prefix_cons_iff.1 hpart with rfl | ⟨t, rfl, ht⟩
    · exact .inl rfl
    · exact absurd (by rw [List.prefix_nil.1 ht]) hne

/-! ### Numbers -/

theorem carries_fixed {size n : Nat} (h : n < 256 ^ size) : (fixed size).Carries n := by
  change (readFixed size).Takes (writeFixed size n) n
  induction size generalizing n with
  | zero =>
    have hzero : n = 0 := by simpa using h
    rw [hzero]
    exact .pure 0
  | succ size ih =>
    have hrest : n / 256 < 256 ^ size := Nat.div_lt_of_lt_mul (by rwa [Nat.pow_succ'] at h)
    have hn : (UInt8.ofNat (n % 256)).toNat + 256 * (n / 256) = n := by
      rw [UInt8.toNat_ofNat_of_lt' (Nat.mod_lt _ (by decide)), Nat.mod_add_div]
    have := (takes_readByte (UInt8.ofNat (n % 256))).bind
      (f := fun b => do return b.toNat + 256 * (← readFixed size)) ((ih hrest).map _)
    rwa [hn] at this

/-- Ten groups hold 64 bits: seven in each but the last, and one there. -/
theorem takes_readGroups {groups n : Nat} (h : n < 2 ^ (7 * groups + 1)) :
    (readGroups groups).Takes (writeGroups n) n := by
  induction groups generalizing n with
  | zero =>
    -- one bit is left, so the byte neither has a follower nor is too large
    have hn : (UInt8.ofNat n).toNat = n :=
      UInt8.toNat_ofNat_of_lt' (show n < 256 by omega)
    have hlast : ¬1 < UInt8.ofNat n := by
      rw [UInt8.lt_iff_toNat_lt, hn]
      simp at h ⊢
      omega
    rw [writeGroups, if_pos (by omega)]
    refine (takes_readByte _).bind_nil ?_
    rw [if_neg hlast, hn]
    exact .pure n
  | succ groups ih =>
    rw [writeGroups]
    by_cases hsmall : n < 128
    · have hn : (UInt8.ofNat n).toNat = n :=
        UInt8.toNat_ofNat_of_lt' (show n < 256 by omega)
      have hlast : UInt8.ofNat n < 128 := by
        rw [UInt8.lt_iff_toNat_lt, hn]
        exact hsmall
      rw [if_pos hsmall]
      refine (takes_readByte _).bind_nil ?_
      rw [if_pos hlast, hn]
      exact .pure n
    · have hn : (UInt8.ofNat (n % 128 + 128)).toNat = n % 128 + 128 :=
        UInt8.toNat_ofNat_of_lt' (show n % 128 + 128 < 256 by omega)
      have hmore : ¬UInt8.ofNat (n % 128 + 128) < 128 := by
        rw [UInt8.lt_iff_toNat_lt, hn]
        simp
      have hrest : n / 128 < 2 ^ (7 * groups + 1) := by
        refine Nat.div_lt_of_lt_mul ?_
        rwa [show 7 * (groups + 1) + 1 = 7 + (7 * groups + 1) by omega, Nat.pow_add] at h
      rw [if_neg hsmall]
      refine (takes_readByte _).bind ?_
      rw [if_neg hmore, hn]
      have hvalue : (n % 128 + 128) % 128 + 128 * (n / 128) = n := by omega
      have := (ih hrest).map fun high => (n % 128 + 128) % 128 + 128 * high
      rwa [hvalue] at this

theorem carries_varying {n : Nat} (h : n < 2 ^ 64) : varying.Carries n :=
  @takes_readGroups 9 n h

theorem carries_alternative {count n : Nat} (h : n < count) (hcount : count ≤ UInt32.size) :
    (alternative count).Carries n := by
  have hn : n < UInt32.size := Nat.lt_of_lt_of_le h hcount
  have hbits : UInt32.size < 2 ^ 64 := by decide
  refine (carries_varying (by omega)).bind_nil ?_
  rw [if_neg (by omega), if_neg (by omega)]
  exact .pure n

/-! ### Sequences -/

theorem Carries.pair {c : Codec α} {d : Codec β} {a : α} {b : β} (hc : c.Carries a)
    (hd : d.Carries b) : (c.pair d).Carries (a, b) :=
  hc.bind (f := fun a => do return (a, ← d.read)) (hd.map (Prod.mk a))

theorem Carries.via {c : Codec α} {wrap : α → β} {unwrap : β → α} {b : β}
    (hc : c.Carries (unwrap b)) (hb : wrap (unwrap b) = b) : (c.via wrap unwrap).Carries b := by
  have := hc.map wrap
  rwa [hb] at this

theorem takes_readMany {c : Codec α} {as : List α} (h : ∀ a ∈ as, c.Carries a) :
    (c.readMany as.length).Takes (as.flatMap c.write) as := by
  induction as with
  | nil => exact .pure []
  | cons a as ih =>
    have hrest := ih fun a ha => h a (List.mem_cons_of_mem _ ha)
    rw [List.flatMap_cons]
    exact (h a List.mem_cons_self).bind (f := fun a => do return a :: (← c.readMany as.length))
      (hrest.map (List.cons a))

theorem carries_list {c : Codec α} {as : List α} (hlength : as.length < 2 ^ 64)
    (h : ∀ a ∈ as, c.Carries a) : c.list.Carries as :=
  (carries_varying hlength).bind (takes_readMany h)

theorem carries_array {c : Codec α} {as : Array α} (hsize : as.size < 2 ^ 64)
    (h : ∀ a ∈ as, c.Carries a) : c.array.Carries as :=
  (carries_list hsize fun a ha => h a (Array.mem_toList_iff.1 ha)).via rfl

theorem takes_readBytes (bytes : Bytes) : (readBytes bytes.length).Takes bytes bytes where
  reads rest := by
    unfold readBytes
    rw [if_neg (by simp), List.take_left, List.drop_left]
  stops part hpart hne := by
    have hlength : part.length < bytes.length :=
      Nat.lt_of_le_of_ne hpart.length_le fun h => hne (hpart.eq_of_length h)
    unfold readBytes
    rw [if_pos hlength]
    exact .inr rfl

theorem carries_text {s : String} (h : s.utf8ByteSize < 2 ^ 64) : text.Carries s := by
  refine (carries_varying h).bind ((takes_readBytes s.toByteArray.data.toList).bind_nil ?_)
  -- what was written is the UTF-8 of a text, so the check on reading succeeds
  rw [Array.toArray_toList, String.fromUTF8?, dif_pos s.isValidUTF8]
  exact .pure s

end Codec

end HexFabric
