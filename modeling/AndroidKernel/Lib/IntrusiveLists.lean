import Mathlib.Algebra.Order.Ring.Int

/-!
# Intrusive lists

A family of doubly linked lists, one for each `q : Q`, whose links are part of
the items: an item `w : W` is on at most one list at a time, and it can be taken
off without knowing which. `entry w` is the list `w` is on; that it agrees with
the lists is part of the structure.
-/

namespace AndroidKernel

open List

/-- Lists of items that each carry one list entry. -/
structure IntrusiveLists (Q W : Type) where
  items : Q → List W
  entry : W → Option Q
  mem_items : ∀ q w, w ∈ items q ↔ entry w = some q
  nodup : ∀ q, (items q).Nodup

namespace IntrusiveLists

variable {Q W : Type}

/-- All lists are empty. -/
def empty : IntrusiveLists Q W where
  items _ := []
  entry _ := none
  mem_items := by simp
  nodup _ := nodup_nil

section Del

variable [DecidableEq W]

/-- `list_del_init`: nothing happens to an item that is on no list. -/
def del (l : IntrusiveLists Q W) (w : W) : IntrusiveLists Q W where
  items q := (l.items q).erase w
  entry v := if v = w then none else l.entry v
  mem_items q v := by
    rw [(l.nodup q).mem_erase_iff, l.mem_items]
    split <;> simp_all
  nodup q := (l.nodup q).erase w

end Del

section Insert

variable [DecidableEq Q] [DecidableEq W]

variable (l : IntrusiveLists Q W) (w : W) (q : Q)

/-- The list `q` becomes `new`, which has `w` in addition. -/
private def insert (new : List W) (hw : l.entry w = none) (hnew : new.Perm (w :: l.items q)) :
    IntrusiveLists Q W where
  items r := if r = q then new else l.items r
  entry v := if v = w then some q else l.entry v
  mem_items r v := by
    have hnot : ∀ r, w ∉ l.items r := fun r => by simp [l.mem_items, hw]
    split
    next hr =>
      subst hr
      rw [hnew.mem_iff, mem_cons, l.mem_items]
      split <;> simp_all
    next hr =>
      rw [l.mem_items]
      split
      next hv =>
        subst hv
        simp [hw, Ne.symm hr]
      · rfl
  nodup r := by
    split
    · rw [hnew.nodup_iff, nodup_cons]
      exact ⟨by simp [l.mem_items, hw], l.nodup q⟩
    · exact l.nodup r

/-- `list_add_tail`, for an item that is on no list. -/
def addTail (hw : l.entry w = none) : IntrusiveLists Q W :=
  l.insert w q (l.items q ++ [w]) hw (perm_append_singleton w _)

/-- `list_add`, for an item that is on no list. -/
def addHead (hw : l.entry w = none) : IntrusiveLists Q W :=
  l.insert w q (w :: l.items q) hw (Perm.refl _)

end Insert

section Lemmas

variable {l : IntrusiveLists Q W} {v w : W} {q : Q}

section Del

variable [DecidableEq W]

@[simp] theorem entry_del_self : (l.del w).entry w = none := if_pos rfl

@[simp] theorem entry_del_of_ne (h : v ≠ w) : (l.del w).entry v = l.entry v := if_neg h

end Del

section Insert

variable [DecidableEq Q] [DecidableEq W]

section

variable {hw : l.entry w = none}

include hw

@[simp] theorem entry_addTail_self : (l.addTail w q hw).entry w = some q := if_pos rfl

@[simp] theorem entry_addTail_of_ne (h : v ≠ w) : (l.addTail w q hw).entry v = l.entry v := if_neg h

end

end Insert

/-- The first item of a list is on it. -/
theorem entry_of_head? (h : (l.items q).head? = some w) : l.entry w = some q :=
  (l.mem_items q w).mp (mem_of_mem_head? h)

end Lemmas

end IntrusiveLists

end AndroidKernel
