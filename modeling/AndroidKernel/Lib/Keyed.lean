import Mathlib.Algebra.Order.Ring.Int
import Mathlib.Data.List.Nodup

/-!
# Lists with keys

Elements are found, taken out and replaced by a key. Where no key occurs twice the
element that is found is the only one with its key.
-/

namespace AndroidKernel.Keyed

open List

variable {α κ : Type} {key : α → κ} {l : List α} {a b x : α} {k : κ}

/-- No two elements have the same key. -/
def Unique (key : α → κ) (l : List α) : Prop := (l.map key).Nodup

theorem unique_cons : Unique key (a :: l) ↔ (∀ x ∈ l, key x ≠ key a) ∧ Unique key l := by
  unfold Unique
  rw [map_cons, nodup_cons, mem_map]
  refine and_congr_left fun _ => ⟨fun h x hx heq => h ⟨x, hx, heq⟩, ?_⟩
  rintro h ⟨x, hx, heq⟩
  exact h x hx heq

theorem Unique.eq (h : Unique key l) (ha : a ∈ l) (hb : b ∈ l) (hk : key a = key b) : a = b :=
  inj_on_of_nodup_map h ha hb hk

theorem Unique.eraseP (h : Unique key l) (p : α → Bool) : Unique key (l.eraseP p) :=
  Nodup.sublist (eraseP_sublist.map key) h

theorem sum_eraseP_le (f : α → Nat) (p : α → Bool) (l : List α) :
    ((l.eraseP p).map f).sum ≤ (l.map f).sum := by
  induction l with
  | nil => simp
  | cons a l ih =>
    rw [eraseP_cons]
    cases p a with
    | true => simp
    | false => simpa using ih

variable [DecidableEq κ]

/-- The element with a key. -/
theorem find?_eq_some (h : Unique key l) (hmem : a ∈ l) (hk : key a = k) :
    l.find? (fun x => key x = k) = some a := by
  obtain ⟨b, hb⟩ : ∃ b, l.find? (fun x => key x = k) = some b :=
    Option.isSome_iff_exists.mp (find?_isSome.mpr ⟨a, hmem, by simpa using hk⟩)
  have hkey : key b = k := by simpa using find?_some hb
  rw [hb, h.eq (mem_of_find?_eq_some hb) hmem (hkey.trans hk.symm)]

/-- The element with a key is taken out. -/
theorem mem_eraseP_iff (h : Unique key l) :
    a ∈ l.eraseP (fun x => key x = k) ↔ a ∈ l ∧ key a ≠ k := by
  induction l with
  | nil => simp
  | cons b l ih =>
    obtain ⟨hb, hl⟩ := unique_cons.mp h
    by_cases hk : key b = k
    · rw [eraseP_cons_of_pos (by simpa using hk)]
      subst hk
      constructor
      · exact fun ha => ⟨mem_cons_of_mem _ ha, hb a ha⟩
      · rintro ⟨ha, hne⟩
        exact (mem_cons.mp ha).resolve_left fun heq => hne (congrArg key heq)
    · rw [eraseP_cons_of_neg (by simpa using hk), mem_cons, mem_cons, ih hl]
      constructor
      · rintro (rfl | ⟨ha, hne⟩)
        · exact ⟨.inl rfl, hk⟩
        · exact ⟨.inr ha, hne⟩
      · rintro ⟨rfl | ha, hne⟩
        · exact .inl rfl
        · exact .inr ⟨ha, hne⟩

/-- An element takes the place of the one with its key. -/
def replace (key : α → κ) (a : α) (l : List α) : List α :=
  l.map fun x => if key x = key a then a else x

@[simp] theorem map_key_replace (key : α → κ) (a : α) (l : List α) :
    (replace key a l).map key = l.map key := by
  unfold replace
  rw [map_map]
  refine map_congr_left fun x _ => ?_
  show key (if key x = key a then a else x) = key x
  split
  next heq =>
    exact heq.symm
  · rfl

theorem Unique.replace (h : Unique key l) (a : α) : Unique key (replace key a l) := by
  unfold Unique
  rw [map_key_replace]
  exact h

theorem mem_replace (h : x ∈ replace key a l) : x = a ∨ x ∈ l ∧ key x ≠ key a := by
  obtain ⟨y, hy, rfl⟩ := mem_map.mp h
  split
  · exact .inl rfl
  next hne =>
    exact .inr ⟨hy, hne⟩

/-- Where nothing has the key nothing is replaced. -/
theorem replace_of_forall_ne (h : ∀ x ∈ l, key x ≠ key a) : replace key a l = l := by
  conv => rhs; rw [← map_id l]
  exact map_congr_left fun x hx => if_neg (h x hx)

theorem sum_replace (h : Unique key l) (hb : b ∈ l) (hk : key b = key a) (f : α → Nat) :
    ((replace key a l).map f).sum + f b = (l.map f).sum + f a := by
  induction l with
  | nil => cases hb
  | cons c l ih =>
    obtain ⟨hc, hl⟩ := unique_cons.mp h
    have hsplit : replace key a (c :: l) =
        (if key c = key a then a else c) :: replace key a l := rfl
    rw [hsplit, map_cons, sum_cons, map_cons, sum_cons]
    rcases mem_cons.mp hb with rfl | hb
    · rw [if_pos hk, replace_of_forall_ne fun x hx heq => hc x hx (heq.trans hk.symm)]
      omega
    · have hne : ¬key c = key a := fun heq => hc b hb (hk.trans heq.symm)
      rw [if_neg hne]
      have hrest := ih hl hb
      omega

end AndroidKernel.Keyed
