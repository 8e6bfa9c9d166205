import AndroidKernel.Lib.Buddy

/-!
# Families of aligned blocks

A block of order `o` at `p` are the `2 ^ o` numbers from `p` on. A family of blocks is canonical
below `top` if its blocks are aligned and apart from each other, and no block below `top` has its
buddy in the family.

- `Canonical.unique`: a canonical family is determined by the numbers that it covers.
- `Canonical.erase`, `Canonical.insert`: taking out a block, and putting one in whose buddy is not
  there, keep a family canonical.
- `Region.lower`, `Region.join`: a region that is apart from the family, when half of it is put in,
  and when it is joined with its buddy.
-/

namespace AndroidKernel

/-- Whether there is a block at `p` of order `o`. -/
abbrev Family := Nat → Nat → Prop

namespace Blocks

variable {F G : Family} {top p o q n x b : Nat}

def Apart (p o q n : Nat) : Prop := p + 2 ^ o ≤ q ∨ q + 2 ^ n ≤ p

theorem Apart.symm (h : Apart p o q n) : Apart q n p o := Or.symm h

def Covers (F : Family) (x : Nat) : Prop := ∃ p o, F p o ∧ p ≤ x ∧ x < p + 2 ^ o

structure Canonical (top : Nat) (F : Family) : Prop where
  aligned : ∀ {p o}, F p o → 2 ^ o ∣ p
  le_top : ∀ {p o}, F p o → o ≤ top
  apart : ∀ {p o q n}, F p o → F q n → ¬(p = q ∧ o = n) → Apart p o q n
  merged : ∀ {p o}, F p o → o < top → ¬F (p ^^^ 2 ^ o) o

/-- Aligned blocks are apart, or one is in the other. -/
theorem apart_or_within (hp : 2 ^ o ∣ p) (hq : 2 ^ n ∣ q) (hle : o ≤ n) :
    Apart p o q n ∨ q ≤ p ∧ p + 2 ^ o ≤ q + 2 ^ n := by
  obtain ⟨a, rfl⟩ := hp
  obtain ⟨c, rfl⟩ := (pow_dvd_pow 2 hle).trans hq
  obtain ⟨d, hd⟩ := pow_dvd_pow 2 hle
  unfold Apart
  rw [hd, ← mul_add]
  rcases lt_or_ge a c with hlt | hge
  · exact .inl (.inl (Nat.mul_le_mul_left _ hlt))
  · rcases lt_or_ge a (c + d) with hlt | hbeyond
    · exact .inr ⟨Nat.mul_le_mul_left _ hge, Nat.mul_le_mul_left _ hlt⟩
    · exact .inl (.inr (Nat.mul_le_mul_left _ hbeyond))

/-- The buddy of an aligned block is behind it or before it. -/
theorem buddy_cases (hp : 2 ^ o ∣ p) : 2 ^ (o + 1) ∣ p ∧ p ^^^ 2 ^ o = p + 2 ^ o ∨
      ∃ b, 2 ^ (o + 1) ∣ b ∧ p = b + 2 ^ o ∧ p ^^^ 2 ^ o = b := by
  obtain ⟨a, rfl⟩ := hp
  rcases Nat.even_or_odd' a with ⟨c, rfl | rfl⟩
  · have hdvd : 2 ^ (o + 1) ∣ 2 ^ o * (2 * c) := ⟨c, by rw [pow_succ, mul_assoc]⟩
    exact .inl ⟨hdvd, Buddy.xor_of_dvd hdvd⟩
  · have hdvd : 2 ^ (o + 1) ∣ 2 ^ o * (2 * c) := ⟨c, by rw [pow_succ, mul_assoc]⟩
    refine .inr ⟨_, hdvd, Nat.mul_succ .., ?_⟩
    rw [Nat.mul_succ, Buddy.xor_add_of_dvd hdvd]

/-! ## Blocks taken out and put in -/

def erase (F : Family) (q : Nat) : Family := fun p o => F p o ∧ p ≠ q

def insert (F : Family) (q n : Nat) : Family := fun p o => p = q ∧ o = n ∨ F p o

theorem covers_insert : Covers (insert F q n) x ↔ q ≤ x ∧ x < q + 2 ^ n ∨ Covers F x := by
  constructor
  · rintro ⟨p, o, ⟨rfl, rfl⟩ | hp, hx⟩
    · exact .inl hx
    · exact .inr ⟨p, o, hp, hx⟩
  · rintro (hx | ⟨p, o, hp, hx⟩)
    · exact ⟨q, n, .inl ⟨rfl, rfl⟩, hx⟩
    · exact ⟨p, o, .inr hp, hx⟩

/-! ## Uniqueness -/

section

variable (hF : Canonical top F)

include hF

/-- Two blocks that have a number in common are the same. -/
theorem Canonical.eq_of_common (h : F p o) (hlo : p ≤ x)
    (hhi : x < p + 2 ^ o) (hq : F q n) (hlo' : q ≤ x) (hhi' : x < q + 2 ^ n) : p = q ∧ o = n := by
  by_contra hne
  have := hF.apart h hq hne
  unfold Apart at this
  omega

/-- An aligned region that is covered is in one block. -/
theorem Canonical.exists_block (hn : n ≤ top) (hq : 2 ^ n ∣ q)
    (hcov : ∀ x, q ≤ x → x < q + 2 ^ n → Covers F x) :
    ∃ p o, F p o ∧ n ≤ o ∧ p ≤ q ∧ q + 2 ^ n ≤ p + 2 ^ o := by
  induction n generalizing q with
  | zero =>
    obtain ⟨p, o, h, hlo, hhi⟩ := hcov q le_rfl (Nat.lt_succ_self q)
    exact ⟨p, o, h, Nat.zero_le o, hlo, hhi⟩
  | succ n ih =>
    -- Each half is in one block. If that is not larger than the half, both are buddies.
    obtain ⟨p₁, o₁, h₁, hle₁, hlo₁, hhi₁⟩ :=
      ih (Nat.le_of_succ_le hn) (Buddy.dvd_left hq) fun x hlo hhi => hcov x hlo (by omega)
    obtain ⟨p₂, o₂, h₂, hle₂, hlo₂, hhi₂⟩ :=
      ih (Nat.le_of_succ_le hn) (Buddy.dvd_right hq) fun x hlo hhi => hcov x (by omega) (by omega)
    have hlarge : ∀ p o, F p o → n + 1 ≤ o → ¬Apart q (n + 1) p o →
        ∃ p o, F p o ∧ n + 1 ≤ o ∧ p ≤ q ∧ q + 2 ^ (n + 1) ≤ p + 2 ^ o := by
      intro p o h hle hover
      have hwithin := (apart_or_within hq (hF.aligned h) hle).resolve_left hover
      exact ⟨p, o, h, hle, hwithin⟩
    rcases hle₁.eq_or_lt with rfl | hlt₁
    swap
    · refine hlarge p₁ o₁ h₁ hlt₁ ?_
      unfold Apart
      omega
    rcases hle₂.eq_or_lt with rfl | hlt₂
    swap
    · refine hlarge p₂ o₂ h₂ hlt₂ ?_
      unfold Apart
      omega
    have hp₁ : p₁ = q := by omega
    have hp₂ : p₂ = q + 2 ^ n := by omega
    subst hp₁ hp₂
    rw [← Buddy.xor_of_dvd hq] at h₂
    exact absurd h₂ (hF.merged h₁ hn)

theorem Canonical.le_of_covers (hG : Canonical top G)
    (hcov : ∀ x, Covers F x ↔ Covers G x) (h : F p o) : G p o := by
  have hin : ∀ {F : Family} {p o}, F p o → ∀ x, p ≤ x → x < p + 2 ^ o → Covers F x :=
    fun h x hlo hhi => ⟨_, _, h, hlo, hhi⟩
  obtain ⟨q, n, hq, hle, hlo, hhi⟩ := hG.exists_block (hF.le_top h) (hF.aligned h) fun x hlo hhi =>
    (hcov x).mp (hin h x hlo hhi)
  obtain ⟨p', o', hp', hle', hlo', hhi'⟩ :=
    hF.exists_block (hG.le_top hq) (hG.aligned hq) fun x hlo hhi =>
    (hcov x).mpr (hin hq x hlo hhi)
  have hpos := Nat.two_pow_pos o
  -- The block that has the other one in it is the block itself.
  obtain ⟨rfl, rfl⟩ := hF.eq_of_common h le_rfl (by omega) hp' (by omega) (by omega)
  obtain rfl := le_antisymm hle hle'
  obtain rfl : q = p := by omega
  exact hq

/-- A canonical family is determined by what it covers. -/
theorem Canonical.unique (hG : Canonical top G)
    (hcov : ∀ x, Covers F x ↔ Covers G x) : F p o ↔ G p o :=
  ⟨hF.le_of_covers hG hcov, hG.le_of_covers hF fun x => (hcov x).symm⟩

theorem Canonical.mono (hsub : ∀ p o, G p o → F p o) : Canonical top G where
  aligned h := hF.aligned (hsub _ _ h)
  le_top h := hF.le_top (hsub _ _ h)
  apart h h' := hF.apart (hsub _ _ h) (hsub _ _ h')
  merged h hlt h' := hF.merged (hsub _ _ h) hlt (hsub _ _ h')

theorem Canonical.erase : Canonical top (erase F q) := hF.mono fun _ _ h => h.1

theorem Canonical.covers_erase (h : F q n) :
    Covers F x ↔ q ≤ x ∧ x < q + 2 ^ n ∨ Covers (Blocks.erase F q) x := by
  constructor
  · rintro ⟨p, o, hp, hx⟩
    by_cases hpq : p = q
    · subst hpq
      have hpos' := Nat.two_pow_pos n
      obtain ⟨-, rfl⟩ := hF.eq_of_common hp le_rfl (by omega) h le_rfl (by omega)
      exact .inl hx
    · exact .inr ⟨p, o, ⟨hp, hpq⟩, hx⟩
  · rintro (hx | ⟨p, o, hp, hx⟩)
    · exact ⟨q, n, h, hx⟩
    · exact ⟨p, o, hp.1, hx⟩

end

/-- A region that is aligned, and apart from the blocks of a family. -/
structure Region (F : Family) (q n : Nat) : Prop where
  aligned : 2 ^ n ∣ q
  apart : ∀ p o, F p o → Apart p o q n

theorem xor_ne (hq : 2 ^ n ∣ q) : q ^^^ 2 ^ n ≠ q := by
  rcases buddy_cases hq with ⟨-, heq⟩ | ⟨b, -, rfl, heq⟩ <;> omega

theorem Canonical.insert (hF : Canonical top F) (h : Region F q n) (hn : n ≤ top)
    (hbuddy : n < top → ¬F (q ^^^ 2 ^ n) n) : Canonical top (insert F q n) where
  aligned := by
    rintro p o (⟨rfl, rfl⟩ | hp)
    · exact h.aligned
    · exact hF.aligned hp
  le_top := by
    rintro p o (⟨rfl, rfl⟩ | hp)
    · exact hn
    · exact hF.le_top hp
  apart := by
    rintro p o p' o' (⟨rfl, rfl⟩ | hp) (⟨rfl, rfl⟩ | hp') hne
    · exact absurd ⟨rfl, rfl⟩ hne
    · exact (h.apart _ _ hp').symm
    · exact h.apart _ _ hp
    · exact hF.apart hp hp' hne
  merged := by
    rintro p o (⟨rfl, rfl⟩ | hp) hlt hb
    · rcases hb with ⟨hb, -⟩ | hb
      · exact xor_ne h.aligned hb
      · exact hbuddy hlt hb
    · rcases hb with ⟨rfl, rfl⟩ | hb
      · refine hbuddy hlt ?_
        rwa [Nat.xor_assoc, Nat.xor_self, Nat.xor_zero]
      · exact hF.merged hp hlt hb

namespace Region

theorem not_covers (h : Region F q n) (hx : q ≤ x ∧ x < q + 2 ^ n) : ¬Covers F x := by
  rintro ⟨p, o, hp, hpx⟩
  have := h.apart p o hp
  unfold Apart at this
  omega

/-- The upper half of a region is put into the family, and the lower half is left. -/
theorem lower (h : Region F q (n + 1)) : Region (insert F (q + 2 ^ n) n) q n := by
  refine ⟨Buddy.dvd_left h.aligned, ?_⟩
  rintro p o (⟨rfl, rfl⟩ | hp)
  · exact .inr le_rfl
  · have := h.apart p o hp
    rw [Apart, pow_succ] at this
    unfold Apart
    omega

theorem upper (h : Region F q (n + 1)) : Region F (q + 2 ^ n) n := by
  refine ⟨Buddy.dvd_right h.aligned, fun p o hp => ?_⟩
  have hpos := Nat.two_pow_pos n
  have := h.apart p o hp
  rw [Apart] at this
  unfold Apart
  omega

/-- The upper half may be put in, since the lower half is not there. -/
theorem canonical_upper (h : Region F q (n + 1)) (hF : Canonical top F) (hn : n ≤ top) :
    Canonical top (Blocks.insert F (q + 2 ^ n) n) := by
  refine hF.insert h.upper hn fun _ hb => ?_
  rw [Buddy.xor_add_of_dvd h.aligned] at hb
  have hpos := Nat.two_pow_pos n
  have := h.apart q n hb
  rw [Apart] at this
  omega

/-- A region joined with its buddy, which is taken out. -/
theorem join (h : Region F q n) (hF : Canonical top F) (hb : F (q ^^^ 2 ^ n) n) :
    Region (erase F (q ^^^ 2 ^ n)) (min q (q ^^^ 2 ^ n)) (n + 1) := by
  rcases buddy_cases h.aligned with ⟨hdvd, heq⟩ | ⟨b, hdvd, rfl, heq⟩
  all_goals
    rw [heq] at hb ⊢
  on_goal 1 => rw [min_eq_left (Nat.le_add_right ..)]
  on_goal 2 => rw [min_eq_right (Nat.le_add_right ..)]
  all_goals
    refine ⟨hdvd, fun p o hp => ?_⟩
    have h₁ := h.apart p o hp.1
    have h₂ := hF.apart hp.1 hb fun hq => hp.2 hq.1
    have hpos := Nat.two_pow_pos o
    unfold Apart at *
    omega

end Region

end Blocks

end AndroidKernel
