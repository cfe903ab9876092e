import HexFabric.Error
import Mathlib.Data.List.Forall2

/-! How computations end. `Ends x E Q` says of a computation that can fail what holds of its result
and what holds of its failure; the rules follow the way in which computations are put together. For
a computation that succeeds, `Returns` says what holds of the result. -/

namespace HexFabric

/-- A failure that an input to the whole run may bring about: an error, neither of nets that share a
key nor of files. -/
def Failure.Expected : Failure → Prop
  | .error (.multisourceRoute _ _ _) => False
  | .error (.io _) => False
  | .error _ => True
  | .defect _ => False

variable {ε α β : Type}

/-- `Q` holds of the result of `x`, or `E` of the failure in which it ends. -/
def Ends (x : Except ε α) (E : ε → Prop) (Q : α → Prop) : Prop :=
  match x with
  | .ok a => Q a
  | .error e => E e

/-- `x` has a result, and `Q` holds of it. -/
abbrev Returns (x : Except ε α) (Q : α → Prop) : Prop := Ends x (fun _ => False) Q

theorem returns_iff {x : Except ε α} {Q : α → Prop} : Returns x Q ↔ ∃ a, x = .ok a ∧ Q a := by
  cases x with
  | ok a => exact ⟨fun h => ⟨a, rfl, h⟩, fun ⟨_, h, hQ⟩ => by cases h; exact hQ⟩
  | error e => exact ⟨fun h => h.elim, fun ⟨_, h, _⟩ => by cases h⟩

namespace Ends

variable {E E' : ε → Prop} {P Q : α → Prop} {R : β → Prop}

theorem of_eq_ok {x : Except ε α} {a : α} (h : Ends x E Q) (hx : x = .ok a) : Q a := by
  subst hx; exact h

theorem of_eq_error {x : Except ε α} {e : ε} (h : Ends x E Q) (hx : x = .error e) : E e := by
  subst hx; exact h

theorem imp {x : Except ε α} (h : Ends x E P) (hE : ∀ e, E e → E' e) (hQ : ∀ a, P a → Q a) :
    Ends x E' Q := by
  cases x with
  | ok a => exact hQ a h
  | error e => exact hE e h

theorem mono {x : Except ε α} (h : Ends x E P) (hQ : ∀ a, P a → Q a) : Ends x E Q :=
  h.imp (fun _ => id) hQ

theorem and_eq {x : Except ε α} (h : Ends x E Q) : Ends x E fun a => x = .ok a ∧ Q a := by
  cases x with
  | ok a => exact ⟨rfl, h⟩
  | error e => exact h

theorem ok {a : α} (h : Q a) : Ends (.ok a : Except ε α) E Q := h

theorem pure {a : α} (h : Q a) : Ends (Pure.pure a : Except ε α) E Q := h

theorem throw {e : ε} (h : E e) : Ends (throw e : Except ε α) E Q := h

theorem bind {x : Except ε α} {f : α → Except ε β} (hx : Ends x E P)
    (hf : ∀ a, P a → Ends (f a) E R) : Ends (x >>= f) E R := by
  cases x with
  | ok a => exact hf a hx
  | error e => exact hx

/-- The rule of a loop: `I` relates what is left of the list to the state. -/
theorem foldlM {l : List α} {f : β → α → Except ε β} {b : β} (I : List α → β → Prop)
    (hb : I l b) (hf : ∀ a ∈ l, ∀ rest b, I (a :: rest) b → Ends (f b a) E (I rest)) :
    Ends (l.foldlM f b) E (I []) := by
  induction l generalizing b with
  | nil => exact hb
  | cons a rest ih =>
    rw [List.foldlM_cons]
    refine (hf a List.mem_cons_self rest b hb).bind fun b' hb' => ih hb' fun c hc => ?_
    exact hf c (List.mem_cons_of_mem a hc)

theorem mapM {l : List α} {f : α → Except ε β} {S : α → β → Prop}
    (hf : ∀ a ∈ l, Ends (f a) E (S a)) : Ends (l.mapM f) E (List.Forall₂ S l) := by
  induction l with
  | nil => exact .nil
  | cons a rest ih =>
    rw [List.mapM_cons]
    refine (hf a List.mem_cons_self).bind fun b hb => ?_
    exact (ih fun c hc => hf c (List.mem_cons_of_mem _ hc)).bind fun bs hbs => .cons hb hbs

/-- The computations for the elements of a list, where the first that fails is named. -/
theorem mapM_first {l : List α} {f : α → Except ε β} {E : α → ε → Prop} {S : α → β → Prop}
    (hf : ∀ a ∈ l, Ends (f a) (E a) (S a)) :
    Ends (l.mapM f)
      (fun e => ∃ before a after, l = before ++ a :: after ∧ (∀ b ∈ before, ∃ r, S b r) ∧ E a e)
      (List.Forall₂ S l) := by
  induction l with
  | nil => exact .nil
  | cons a rest ih =>
    obtain ⟨hfirst, hrest⟩ := List.forall_mem_cons.1 hf
    rw [List.mapM_cons]
    refine Ends.bind (hfirst.imp (fun e he => ⟨[], a, rest, rfl, by simp, he⟩) fun _ => id)
      fun b hb => Ends.bind ((ih hrest).imp ?_ fun _ => id) fun bs hbs => .cons hb hbs
    rintro e ⟨before, c, after, rfl, hbefore, he⟩
    exact ⟨a :: before, c, after, rfl, List.forall_mem_cons.2 ⟨⟨b, hb⟩, hbefore⟩, he⟩

/-- The results of some computations are those of all, once each of them has one. -/
theorem sequence {l : List β} {rs : List (Except ε α)} {S : β → α → Prop}
    (h : List.Forall₂ (fun b r => Ends r E (S b)) l rs) :
    Ends (rs.mapM id) E (List.Forall₂ S l) := by
  induction h with
  | nil => exact .nil
  | cons hr _ ih =>
    rw [List.mapM_cons]
    exact Ends.bind hr fun a ha => ih.bind fun as has => .cons ha has

theorem allM {l : List α} {f : α → Except ε Bool} {S : α → Prop}
    (hf : ∀ a ∈ l, Ends (f a) E fun b => b = true ↔ S a) :
    Ends (l.allM f) E fun b => b = true ↔ ∀ a ∈ l, S a := by
  induction l with
  | nil => exact .pure (by simp)
  | cons a rest ih =>
    rw [List.allM]
    refine (hf a List.mem_cons_self).bind fun b hb => ?_
    cases b with
    | false => exact .pure (by simp at hb ⊢; exact fun h => absurd h hb)
    | true =>
      refine (ih fun c hc => hf c (List.mem_cons_of_mem _ hc)).mono fun b' hb' => ?_
      rw [hb']
      simp [hb.1 rfl]

end Ends

/-! ### Lifting -/

/-- A computation without defects, as part of one that may end in an error. -/
theorem Returns.lift {x : Checked α} {E : Failure → Prop} {Q : α → Prop} (h : Returns x Q) :
    Ends (liftM x : Outcome α) E Q := by
  cases x with
  | ok a => exact h
  | error d => exact h.elim

theorem Ends.liftError {x : Except Error α} {E : Failure → Prop} {Q : α → Prop}
    (h : Ends x (fun e => E (.error e)) Q) : Ends (liftM x : Outcome α) E Q := by
  cases x with
  | ok a => exact h
  | error e => exact h

theorem Ends.liftChecked {x : Checked α} {E : Failure → Prop} {Q : α → Prop}
    (h : Ends x (fun d => E (.defect d)) Q) : Ends (liftM x : Outcome α) E Q := by
  cases x with
  | ok a => exact h
  | error d => exact h

/-- A computation that cannot end in an error, as part of one that can. -/
theorem Ends.lift_of_checked (x : Checked α) {P : Error → Prop} :
    Ends (liftM x : Outcome α) (fun f => ∀ e, f = .error e → P e) fun _ => True := by
  cases x with
  | ok a => trivial
  | error d => exact fun e he => nomatch he

theorem liftM_ok_bind {a : α} {f : α → Outcome β} : (liftM (.ok a : Checked α) >>= f) = f a := rfl

theorem liftError_ok_bind {a : α} {f : α → Outcome β} :
    (liftM (.ok a : Except Error α) >>= f) = f a := rfl

theorem Failure.expected_fail {e : Error} {Q : α → Prop} (h : (Failure.error e).Expected) :
    Ends (fail e) Failure.Expected Q := h

/-! ### Assertions -/

section Assertions

variable [Build] {p : Prop} [Decidable p] {d : Defect}

/-- In either build an assertion stops a computation only if it fails. -/
theorem ends_assert (p : Prop) [Decidable p] (d : Defect) :
    Ends (assert p d) (fun e => Build.asserts ∧ ¬p ∧ e = d) fun _ => Build.asserts → p := by
  unfold assert
  cases hbuild : Build.asserts with
  | false => exact .ok nofun
  | true =>
    by_cases hp : p
    · rw [if_pos hp]
      exact .ok fun _ => hp
    · rw [if_neg hp]
      exact ⟨rfl, hp, rfl⟩

theorem assert_of (h : p) : assert p d = .ok () := by
  unfold assert
  cases Build.asserts with
  | false => rfl
  | true => exact if_pos h

end Assertions

/-! ### Inversion -/

theorem bind_eq_ok {x : Except ε α} {f : α → Except ε β} {b : β} :
    (x >>= f) = .ok b ↔ ∃ a, x = .ok a ∧ f a = .ok b := by
  cases x with
  | ok a => simp [Bind.bind, Except.bind]
  | error e => simp [Bind.bind, Except.bind]

@[simp] theorem pure_eq_ok {a b : α} : (pure a : Except ε α) = .ok b ↔ a = b := by
  simp [pure, Except.pure]

theorem mapM_eq_ok {f : α → Except ε β} {l : List α} {bs : List β} :
    l.mapM f = .ok bs ↔ List.Forall₂ (fun a b => f a = .ok b) l bs := by
  induction l generalizing bs with
  | nil => rw [List.mapM_nil, pure_eq_ok, List.forall₂_nil_left_iff, eq_comm]
  | cons a rest ih =>
    simp only [List.mapM_cons, bind_eq_ok, pure_eq_ok, ih, List.forall₂_cons_left_iff]
    constructor
    · rintro ⟨b, hb, bs', hbs, rfl⟩
      exact ⟨b, bs', hb, hbs, rfl⟩
    · rintro ⟨b, bs', hb, hbs, rfl⟩
      exact ⟨b, hb, bs', hbs, rfl⟩

theorem mapM_congr {f g : α → Except ε β} {l : List α} (h : ∀ a ∈ l, f a = g a) :
    l.mapM f = l.mapM g := by
  induction l with
  | nil => rfl
  | cons a rest ih =>
    rw [List.mapM_cons, List.mapM_cons, h a List.mem_cons_self,
      ih fun b hb => h b (List.mem_cons_of_mem a hb)]

/-- A loop of which every step succeeds. -/
theorem foldlM_eq_ok_of_forall {f : β → α → Except ε β} {step : β → α → β} {l : List α}
    (h : ∀ a ∈ l, ∀ b, f b a = .ok (step b a)) (b : β) : l.foldlM f b = .ok (l.foldl step b) := by
  induction l generalizing b with
  | nil => rfl
  | cons a rest ih =>
    rw [List.foldlM_cons, h a List.mem_cons_self, List.foldl_cons]
    exact ih (fun c hc => h c (List.mem_cons_of_mem a hc)) _

theorem liftM_eq_ok {x : Except Error α} {a : α} :
    (liftM x : Outcome α) = .ok a ↔ x = .ok a := by
  cases x with
  | ok b =>
    change (.ok b : Outcome α) = .ok a ↔ _
    rw [Except.ok.injEq, Except.ok.injEq]
  | error e => exact iff_of_false nofun nofun

theorem liftM_checked_eq_ok {x : Checked α} {a : α} :
    (liftM x : Outcome α) = .ok a ↔ x = .ok a := by
  cases x with
  | ok b =>
    change (.ok b : Outcome α) = .ok a ↔ _
    rw [Except.ok.injEq, Except.ok.injEq]
  | error d => exact iff_of_false nofun nofun

/-! ### Lists of results -/

theorem exists_left {R : α → β → Prop} {xs : List α} {ys : List β} (h : List.Forall₂ R xs ys)
    {i : Nat} {b : β} (hb : ys[i]? = some b) : ∃ a, xs[i]? = some a ∧ R a b := by
  induction h generalizing i with
  | nil => cases hb
  | cons hab _ ih =>
    cases i with
    | zero => cases hb; exact ⟨_, rfl, hab⟩
    | succ i => exact ih hb

theorem exists_right {R : α → β → Prop} {xs : List α} {ys : List β} (h : List.Forall₂ R xs ys)
    {i : Nat} {a : α} (ha : xs[i]? = some a) : ∃ b, ys[i]? = some b ∧ R a b := by
  induction h generalizing i with
  | nil => cases ha
  | cons hab _ ih =>
    cases i with
    | zero => cases ha; exact ⟨_, rfl, hab⟩
    | succ i => exact ih ha

theorem forall_right {R : α → β → Prop} {xs : List α} {ys : List β} (h : List.Forall₂ R xs ys)
    {b : β} (hb : b ∈ ys) : ∃ a ∈ xs, R a b := by
  obtain ⟨i, hi⟩ := List.mem_iff_getElem?.1 hb
  obtain ⟨a, ha, hab⟩ := exists_left h hi
  exact ⟨a, List.mem_of_getElem? ha, hab⟩

/-! ### Sequences -/

section Sequences

variable {xs : Array α} {i : Nat} {a : α}

@[simp] theorem fetch_eq_ok : fetch xs i = .ok a ↔ xs[i]? = some a := by
  unfold fetch
  cases xs[i]? with
  | none => simp
  | some b => simp

theorem returns_fetch (h : i < xs.size) : Returns (fetch xs i) fun a => xs[i]? = some a :=
  returns_iff.2 ⟨xs[i], by simp [h], by simp [h]⟩

theorem store_of_lt (h : i < xs.size) : store xs i a = .ok (xs.setIfInBounds i a) := if_pos h

theorem adjust_of_lt {f : α → α} (h : i < xs.size) : adjust xs i f = .ok (xs.modify i f) :=
  if_pos h

theorem adjust_eq_ok {f : α → α} {ys : Array α} :
    adjust xs i f = .ok ys ↔ i < xs.size ∧ xs.modify i f = ys := by
  unfold adjust
  split_ifs with h
  · simp [h]
  · simp [h]

/-! ### Numbered elements -/

theorem getElem?_of_mem_zipIdx {e : α × Nat} (h : e ∈ xs.toList.zipIdx) : xs[e.2]? = some e.1 := by
  rw [← Array.getElem?_toList]
  exact List.mem_zipIdx_iff_getElem?.1 h

theorem pairwise_zipIdx (l : List α) : l.zipIdx.Pairwise fun a b => a.2 < b.2 := by
  rw [← List.pairwise_map, List.zipIdx_map_snd]
  exact List.pairwise_lt_range'

end Sequences

end HexFabric
