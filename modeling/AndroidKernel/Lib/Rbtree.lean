import Mathlib.Algebra.Order.Ring.Int
import Mathlib.Data.List.Sort

/-!
# Red-black trees (`lib/rbtree.c`)

The kernel's red-black trees leave the search to their callers: a caller walks
down from the root with its own comparison, links the new node at the empty
place it reached (`rb_link_node`) and then calls `rb_insert_color`, which only
recolours and rotates. `rb_erase` takes a node, not a key.

- `Rbtree α`: a coloured tree; an element stands for the node that embeds it.
- `Path α`: the parent pointers of a position, from the position to the root.
- `rbInsertColor`, `rbEraseColor`, `rbErase`: the loops of `lib/rbtree.c`, with
  the path in the place of the parent pointers.
- `insertAt`: a caller's descent, `rb_link_node` and `rb_insert_color`.

What callers rely on is stated over the in-order list: rebalancing never
changes it, an insertion puts the element where the descent ended, and an
erasure removes exactly the given element.
-/

namespace AndroidKernel

universe u

/-- `RB_RED` and `RB_BLACK`. -/
inductive Color where
  | red
  | black
  deriving DecidableEq

/-- A tree of nodes; `nil` is the `NULL` child. -/
inductive Rbtree (α : Type u) where
  | nil
  | node (c : Color) (l : Rbtree α) (x : α) (r : Rbtree α)
  deriving DecidableEq

namespace Rbtree

variable {α : Type u} {t : Rbtree α}

/-- The way from a position up to the root. `left c p x r` says that the
position is the left child of a node with element `x`, colour `c` and right
child `r`, and that this node sits at `p`. -/
inductive Path (α : Type u) where
  | root
  | left (c : Color) (p : Path α) (x : α) (r : Rbtree α)
  | right (c : Color) (l : Rbtree α) (x : α) (p : Path α)
  deriving DecidableEq

/-- The whole tree with `t` put at a position. -/
def Path.fill : Path α → Rbtree α → Rbtree α
  | .root, t => t
  | .left c p x r, t => p.fill (.node c t x r)
  | .right c l x p, t => p.fill (.node c l x t)

/-- The elements in order. -/
def toList : Rbtree α → List α
  | nil => []
  | node _ l x r => l.toList ++ x :: r.toList

theorem eq_nil_of_toList (h : t.toList = []) : t = nil := by
  cases t with
  | nil => rfl
  | node c l x r => simp [toList] at h

/-- The elements before a position, in order. -/
def Path.before : Path α → List α
  | .root => []
  | .left _ p _ _ => p.before
  | .right _ l x p => p.before ++ (l.toList ++ [x])

/-- The elements after a position, in order. -/
def Path.after : Path α → List α
  | .root => []
  | .left _ p x r => x :: r.toList ++ p.after
  | .right _ _ _ p => p.after

theorem toList_fill (p : Path α) (t : Rbtree α) :
    (p.fill t).toList = p.before ++ t.toList ++ p.after := by
  induction p generalizing t with
  | root => simp [Path.fill, Path.before, Path.after]
  | left c p x r ih | right c l x p ih => simp [Path.fill, Path.before, Path.after, ih, toList]

/-- `rb_is_red`, false on `NULL`. -/
def isRed : Rbtree α → Bool
  | node .red _ _ _ => true
  | _ => false

/-- `rb_set_black`. -/
def setBlack : Rbtree α → Rbtree α
  | nil => nil
  | node _ l x r => node .black l x r

/-- `rb_set_red`. -/
def setRed : Rbtree α → Rbtree α
  | nil => nil
  | node _ l x r => node .red l x r

@[simp] theorem toList_setBlack (t : Rbtree α) : t.setBlack.toList = t.toList := by
  cases t <;> rfl

@[simp] theorem toList_setRed (t : Rbtree α) : t.setRed.toList = t.toList := by
  cases t <;> rfl

/-! ## `rb_insert_color` -/

/-- `rb_insert_color`: `n` is the red node, the path its parent pointers. A red
parent without a grandparent would be a red root, which no tree has (the source
follows the `NULL` grandparent there). -/
def rbInsertColor : Rbtree α → Path α → Rbtree α
  | n, .left .red (.left _ gp gx uncle) px pr =>
    if uncle.isRed then
      rbInsertColor (.node .red (.node .black n px pr) gx uncle.setBlack) gp
    else
      -- rotate right at the grandparent
      (gp.fill (.node .black n px (.node .red pr gx uncle))).setBlack
  | n, .right .red pl px (.left gc gp gx uncle) =>
    if uncle.isRed then
      rbInsertColor (.node .red (.node .black pl px n) gx uncle.setBlack) gp
    else
      -- rotate left at the parent first, which swaps `node` and `parent`
      match n with
      | .nil => (gp.fill (.node gc (.node .red pl px .nil) gx uncle)).setBlack
      | .node _ a x b =>
        (gp.fill (.node .black (.node .red pl px a) x (.node .red b gx uncle))).setBlack
  | n, .right .red pl px (.right _ uncle gx gp) =>
    if uncle.isRed then
      rbInsertColor (.node .red uncle.setBlack gx (.node .black pl px n)) gp
    else
      (gp.fill (.node .black (.node .red uncle gx pl) px n)).setBlack
  | n, .left .red (.right gc uncle gx gp) px pr =>
    if uncle.isRed then
      rbInsertColor (.node .red uncle.setBlack gx (.node .black n px pr)) gp
    else
      match n with
      | .nil => (gp.fill (.node gc uncle gx (.node .red .nil px pr))).setBlack
      | .node _ a x b =>
        (gp.fill (.node .black (.node .red uncle gx a) x (.node .red b px pr))).setBlack
  | n, p => (p.fill n).setBlack

theorem toList_rbInsertColor (n : Rbtree α) (p : Path α) :
    (rbInsertColor n p).toList = p.before ++ n.toList ++ p.after := by
  fun_induction rbInsertColor n p <;>
    simp_all [toList_fill, toList, Path.before, Path.after]

/-! ## `rb_erase` -/

/-- The last rotation of `__rb_erase_color` for a left child: the sibling
`other` has a red child, its black-height debt is paid and the loop ends. -/
def rbEraseFixLeft (n : Rbtree α) (pc : Color) (px : α) : Rbtree α → Rbtree α
  | .node oc ol ox or =>
    if or.isRed then
      .node pc (.node .black n px ol) ox or.setBlack
    else
      match ol with
      | .nil => .node pc n px (.node oc .nil ox or)
      | .node _ a y b => .node pc (.node .black n px a) y (.node .black b ox or)
  | .nil => .node pc n px .nil

/-- The mirror image of `rbEraseFixLeft`, for a right child. -/
def rbEraseFixRight (n : Rbtree α) (pc : Color) (px : α) : Rbtree α → Rbtree α
  | .node oc ol ox or =>
    if ol.isRed then
      .node pc ol.setBlack ox (.node .black or px n)
    else
      match or with
      | .nil => .node pc (.node oc ol ox .nil) px n
      | .node _ a y b => .node pc (.node .black ol ox a) y (.node .black b px n)
  | .nil => .node pc .nil px n

/-- Both children of the sibling are black (or absent). -/
def childrenBlack : Rbtree α → Bool
  | .node _ l _ r => !l.isRed && !r.isRed
  | .nil => true

/-- `__rb_erase_color`: `n` is the child that took the erased black node's
place. The sibling of a position with a black debt is never `NULL`. -/
def rbEraseColor (n : Rbtree α) : Path α → Rbtree α
  | .root => n.setBlack
  | .left pc pp px other =>
    if n.isRed then (pp.fill (.node pc n.setBlack px other))
    else match other with
      | .node .red ol ox or =>
        -- the rotated parent is red, so the loop ends at it at the latest
        if ol.childrenBlack then
          (Path.left .black pp ox or).fill (.node .black n px ol.setRed)
        else ((Path.left .black pp ox or).fill (rbEraseFixLeft n .red px ol)).setBlack
      | other =>
        if other.childrenBlack then rbEraseColor (.node pc n px other.setRed) pp
        else (pp.fill (rbEraseFixLeft n pc px other)).setBlack
  | .right pc other px pp =>
    if n.isRed then (pp.fill (.node pc other px n.setBlack))
    else match other with
      | .node .red ol ox or =>
        if or.childrenBlack then
          (Path.right .black ol ox pp).fill (.node .black or.setRed px n)
        else ((Path.right .black ol ox pp).fill (rbEraseFixRight n .red px or)).setBlack
      | other =>
        if other.childrenBlack then rbEraseColor (.node pc other.setRed px n) pp
        else (pp.fill (rbEraseFixRight n pc px other)).setBlack

theorem toList_rbEraseFixLeft (n : Rbtree α) (pc : Color) (px : α) (other : Rbtree α) :
    (rbEraseFixLeft n pc px other).toList = n.toList ++ px :: other.toList := by
  fun_cases rbEraseFixLeft n pc px other <;> simp [toList]

theorem toList_rbEraseFixRight (n : Rbtree α) (pc : Color) (px : α) (other : Rbtree α) :
    (rbEraseFixRight n pc px other).toList = other.toList ++ px :: n.toList := by
  fun_cases rbEraseFixRight n pc px other <;> simp [toList]

theorem toList_rbEraseColor (n : Rbtree α) (p : Path α) :
    (rbEraseColor n p).toList = p.before ++ n.toList ++ p.after := by
  fun_induction rbEraseColor n p <;>
    simp_all [toList_fill, toList, Path.before, Path.after, toList_rbEraseFixLeft,
      toList_rbEraseFixRight]

/-- `rb_first` of a non-empty tree: its leftmost element, given the root. -/
def first (x : α) : Rbtree α → α
  | .nil => x
  | .node _ l y _ => l.first y

/-- `rb_first`. -/
def rbFirst : Rbtree α → Option α
  | .nil => none
  | .node _ l x _ => some (l.first x)

/-- The walk of `rb_erase` to the in-order successor: the colour and the right
child of the leftmost node of `node c l x r`, and that node's path. -/
def zoomFirst (c : Color) (r : Rbtree α) (x : α) : Rbtree α → Path α → Color × Rbtree α × Path α
  | .nil, p => (c, r, p)
  | .node lc ll lx lr, p => zoomFirst lc lr lx ll (.left c p x r)

/-- The place of element `x`: its colour, children and path. -/
def locate [DecidableEq α] (x : α) : Rbtree α → Path α →
    Option (Color × Rbtree α × Rbtree α × Path α)
  | .nil, _ => none
  | .node c l y r, p =>
    match locate x l (.left c p y r) with
    | some z => some z
    | none => if y = x then some (c, l, r, p) else locate x r (.right c l y p)

/-- Unlink a node with colour `c`, at most one child `child` and path `p`. -/
def rbUnlink (c : Color) (child : Rbtree α) (p : Path α) : Rbtree α :=
  match c with
  | .black => rbEraseColor child p
  | .red => p.fill child

/-- `rb_erase`: the node of element `x` leaves the tree; when it has two
children its successor takes its place and its colour. -/
def rbErase [DecidableEq α] (x : α) (t : Rbtree α) : Rbtree α :=
  match locate x t .root with
  | none => t
  | some (c, .nil, r, p) => rbUnlink c r p
  | some (c, l, .nil, p) => rbUnlink c l p
  | some (c, l, .node rc rl rx rr, p) =>
    let y := rl.first rx
    let (yc, child, yp) := zoomFirst rc rr rx rl (.right c l y p)
    rbUnlink yc child yp

theorem toList_rbUnlink (c : Color) (child : Rbtree α) (p : Path α) :
    (rbUnlink c child p).toList = p.before ++ child.toList ++ p.after := by
  cases c with
  | red => simp [rbUnlink, toList_fill]
  | black => simp [rbUnlink, toList_rbEraseColor]

theorem zoomFirst_spec (c : Color) (r : Rbtree α) (x : α) (l : Rbtree α) (p : Path α) :
    (zoomFirst c r x l p).2.2.before = p.before ∧ l.toList ++ x :: r.toList ++ p.after
        = l.first x :: (zoomFirst c r x l p).2.1.toList ++ (zoomFirst c r x l p).2.2.after := by
  induction l generalizing c r x p with
  | nil => simp [zoomFirst, first, toList]
  | node lc ll lx lr ihl _ =>
    obtain ⟨hb, ha⟩ := ihl lc lr lx (.left c p x r)
    refine ⟨by simpa [zoomFirst, Path.before] using hb, ?_⟩
    simpa [zoomFirst, first, toList, Path.after] using ha

theorem locate_none [DecidableEq α] {x : α} {p : Path α}
    (h : locate x t p = none) : x ∉ t.toList := by
  induction t generalizing p with
  | nil => simp [toList]
  | node c l y r ihl ihr =>
    rw [locate] at h
    split at h
    · cases h
    next hl =>
      split at h
      · cases h
      next hne =>
        simp [toList, ihl hl, ihr h, Ne.symm hne]

theorem locate_some [DecidableEq α] {x : α} {p : Path α}
    {c : Color} {l r : Rbtree α} {q : Path α} (h : locate x t p = some (c, l, r, q)) :
    ∃ a b, t.toList = a ++ l.toList ++ x :: (r.toList ++ b) ∧
      x ∉ a ++ l.toList ∧ q.before = p.before ++ a ∧ q.after = b ++ p.after := by
  induction t generalizing p with
  | nil => simp [locate] at h
  | node c' l' y r' ihl ihr =>
    rw [locate] at h
    split at h
    next z hl =>
      cases h
      obtain ⟨a, b, h1, h2, h3, h4⟩ := ihl hl
      refine ⟨a, b ++ y :: r'.toList, ?_, h2, h3, ?_⟩
      · simp [toList, h1]
      · simp [h4, Path.after]
    next hl =>
      split at h
      next heq =>
        cases h
        refine ⟨[], [], ?_, ?_, ?_, ?_⟩
        · simp [toList, heq]
        · simpa using locate_none hl
        · simp
        · simp
      · obtain ⟨a, b, h1, h2, h3, h4⟩ := ihr h
        refine ⟨l'.toList ++ y :: a, b, ?_, ?_, ?_, ?_⟩
        · simp [toList, h1]
        · have := locate_none hl
          simp_all [eq_comm]
        · simp [h3, Path.before]
        · simp [h4, Path.after]

/-- `rb_erase` removes the given element and keeps the order of the others. -/
@[simp] theorem toList_rbErase [DecidableEq α] (x : α) (t : Rbtree α) :
    (rbErase x t).toList = t.toList.erase x := by
  have hlist : ∀ {a l r b : List α}, t.toList = a ++ l ++ x :: (r ++ b) → x ∉ a ++ l →
      t.toList.erase x = a ++ l ++ (r ++ b) := by
    intro a l r b h hx
    rw [h, List.erase_append_right _ hx]
    simp
  rw [rbErase]
  split
  next h =>
    rw [List.erase_of_not_mem (locate_none h)]
  case h_2 | h_3 =>
    rename_i h
    obtain ⟨a, b, h1, h2, h3, h4⟩ := locate_some h
    rw [hlist h1 h2, toList_rbUnlink, h3, h4]
    simp [Path.before, Path.after, toList]
  next c l rc rl rx rr p _ h =>
    obtain ⟨a, b, h1, h2, h3, h4⟩ := locate_some h
    have hz := zoomFirst_spec rc rr rx rl (.right c l (rl.first rx) p)
    obtain ⟨hb, ha⟩ := hz
    rw [hlist h1 h2, toList_rbUnlink, hb]
    simp only [Path.before, Path.after, h3, h4] at ha ⊢
    have ha' : rl.toList ++ rx :: rr.toList ++ (b ++ ([] : List α)) = _ := ha
    simp [toList] at ha' ⊢
    rw [ha']

/-! ## The successor of a node -/

/-- The walk up of `rb_next`: the nearest ancestor that the position is to the left of. -/
def Path.next : Path α → Option α
  | .root => none
  | .left _ _ x _ => some x
  | .right _ _ _ p => p.next

/-- `rb_next`. -/
def rbNext [DecidableEq α] (x : α) (t : Rbtree α) : Option α :=
  match locate x t .root with
  | none => none
  | some (_, _, .nil, p) => p.next
  | some (_, _, .node _ rl rx _, _) => some (rl.first rx)

theorem Path.next_eq (p : Path α) : p.next = p.after.head? := by
  induction p with
  | root => rfl
  | left c p x r ih => simp [Path.next, Path.after]
  | right c l x p ih => simpa [Path.next, Path.after] using ih

theorem head?_toList_node (c : Color) (l : Rbtree α) (x : α) (r : Rbtree α) :
    (node c l x r).toList.head? = some (l.first x) := by
  induction l generalizing c x r with
  | nil => simp [toList, first]
  | node lc ll lx lr ihl _ =>
    have h := ihl lc lx lr
    rw [toList, List.head?_append, h]
    rfl

/-- `rb_next` is the successor in order. -/
theorem rbNext_eq [DecidableEq α] {x : α} {a b : List α}
    (h : t.toList = a ++ x :: b) (hx : x ∉ a) : rbNext x t = b.head? := by
  -- the elements before the place that is found do not hold `x`, so it is this one
  have hsplit : ∀ {l r a' b' : List α}, t.toList = a' ++ l ++ x :: (r ++ b') → x ∉ a' ++ l →
      b = r ++ b' := by
    intro l r a' b' h' hx'
    rw [h] at h'
    exact (List.cons.inj (List.append_inj' h' (by
      have hidx := congrArg (List.idxOf x) h'
      rw [List.idxOf_append_of_notMem hx, List.idxOf_append_of_notMem hx'] at hidx
      have hlen := congrArg List.length h'
      simp only [List.idxOf_cons_self, List.length_append] at hidx hlen ⊢
      omega)).2).2
  rw [rbNext]
  split
  next hnone =>
    exact absurd (by simp [h]) (locate_none hnone)
  next c l p hsome =>
    obtain ⟨a', b', h1, h2, h3, h4⟩ := locate_some hsome
    rw [hsplit h1 h2, Path.next_eq, h4]
    simp [toList, Path.after]
  next c l rc rl rx rr p hsome =>
    obtain ⟨a', b', h1, h2, h3, h4⟩ := locate_some hsome
    rw [hsplit h1 h2, List.head?_append, head?_toList_node]
    rfl

/-! ## Insertion by a caller's descent -/

/-- The place a caller reaches that goes left exactly at the elements with
`goLeft`. -/
def descend (goLeft : α → Bool) : Rbtree α → Path α → Path α
  | .nil, p => p
  | .node c l x r, p =>
    if goLeft x then descend goLeft l (.left c p x r)
    else descend goLeft r (.right c l x p)

/-- The elements a caller meets on that descent. -/
def visited (goLeft : α → Bool) : Rbtree α → List α
  | .nil => []
  | .node _ l x r => x :: (if goLeft x then visited goLeft l else visited goLeft r)

/-- A caller's descent, `rb_link_node` and `rb_insert_color`. -/
def insertAt (goLeft : α → Bool) (x : α) (t : Rbtree α) : Rbtree α :=
  rbInsertColor (.node .red .nil x .nil) (descend goLeft t .root)

theorem mem_of_mem_visited {goLeft : α → Bool} {y : α} :
    ∀ {t : Rbtree α}, y ∈ visited goLeft t → y ∈ t.toList
  | .nil, h => by simp [visited] at h
  | .node c l x r, h => by
    rw [visited, List.mem_cons] at h
    rcases h with rfl | h
    · simp [toList]
    · split at h
      · simp [toList, mem_of_mem_visited h]
      · simp [toList, mem_of_mem_visited h]

/-- Once the descent would go left it keeps going left further to the right:
what a search tree is for a caller's comparison. -/
def Searchable (goLeft : α → Bool) (l : List α) : Prop :=
  l.Pairwise fun a b => goLeft a → goLeft b

section

variable {goLeft : α → Bool} {t : Rbtree α}

section

variable (hs : Searchable goLeft t.toList)

include hs

theorem descend_spec (p : Path α) :
    ∃ a b, t.toList = a ++ b ∧ (descend goLeft t p).before = p.before ++ a ∧
      (descend goLeft t p).after = b ++ p.after ∧
      (∀ y ∈ a, goLeft y = false) ∧ ∀ y ∈ b, goLeft y = true := by
  induction t generalizing p with
  | nil => exact ⟨[], [], by simp [toList, descend]⟩
  | node c l x r ihl ihr =>
    rw [Searchable, toList, List.pairwise_append, List.pairwise_cons] at hs
    obtain ⟨hl, ⟨hxr, hr⟩, hlx⟩ := hs
    rw [descend]
    cases hx : goLeft x with
    | true =>
      obtain ⟨a, b, h1, h2, h3, h4, h5⟩ := ihl hl (.left c p x r)
      refine ⟨a, b ++ x :: r.toList, by simp [toList, h1], h2, ?_, h4, ?_⟩
      · simp [h3, Path.after]
      · exact List.forall_mem_append.mpr
          ⟨h5, List.forall_mem_cons.mpr ⟨hx, fun y hy => hxr y hy hx⟩⟩
    | false =>
      obtain ⟨a, b, h1, h2, h3, h4, h5⟩ := ihr hr (.right c l x p)
      refine ⟨l.toList ++ x :: a, b, by simp [toList, h1], ?_, h3, ?_, h5⟩
      · simp [h2, Path.before]
      intro y hy
      simp only [List.mem_append, List.mem_cons] at hy
      rcases hy with hy | rfl | hy
      · cases hgy : goLeft y with
        | false => rfl
        | true => exact absurd (hlx y hy x (by simp) hgy) (by simp [hx])
      · exact hx
      · exact h4 y hy

/-- A descent that never goes right ends to the left of everything. -/
theorem visited_all_iff :
    (visited goLeft t).all goLeft = true ↔ ∀ y ∈ t.toList, goLeft y = true := by
  constructor
  · intro h
    induction t with
    | nil => simp [toList]
    | node c l x r ihl _ =>
      rw [Searchable, toList, List.pairwise_append, List.pairwise_cons] at hs
      obtain ⟨hl, ⟨hxr, -⟩, -⟩ := hs
      simp only [visited, List.all_cons, Bool.and_eq_true] at h
      obtain ⟨hx, h⟩ := h
      rw [if_pos hx] at h
      exact List.forall_mem_append.mpr
        ⟨ihl hl h, List.forall_mem_cons.mpr ⟨hx, fun y hy => hxr y hy hx⟩⟩
  · intro h
    exact List.all_eq_true.mpr fun y hy => h y (mem_of_mem_visited hy)

/-- An insertion into a search tree splits the in-order list at the descent's
comparison. -/
theorem toList_insertAt (x : α) :
    ∃ a b, t.toList = a ++ b ∧ (insertAt goLeft x t).toList = a ++ x :: b ∧
      (∀ y ∈ a, goLeft y = false) ∧ ∀ y ∈ b, goLeft y = true := by
  obtain ⟨a, b, h1, h2, h3, h4, h5⟩ := descend_spec hs .root
  refine ⟨a, b, h1, ?_, h4, h5⟩
  rw [insertAt, toList_rbInsertColor, h2, h3]
  simp [toList, Path.before, Path.after]

/-- An insertion keeps an order that the descent follows. -/
theorem pairwise_insertAt {R : α → α → Prop} {x : α} (h : t.toList.Pairwise R)
    (hbefore : ∀ y ∈ t.toList, goLeft y = false → R y x)
    (hafter : ∀ y ∈ t.toList, goLeft y = true → R x y) : (insertAt goLeft x t).toList.Pairwise
    R := by
  obtain ⟨a, b, hab, hnew, ha, hb⟩ := toList_insertAt hs x
  rw [hab, List.pairwise_append] at h
  rw [hab] at hbefore hafter
  rw [hnew, List.pairwise_append, List.pairwise_cons]
  refine ⟨h.1, ⟨fun y hy => ?_, h.2.1⟩, fun y hy z hz => ?_⟩
  · exact hafter y (List.mem_append_right _ hy) (hb y hy)
  · rcases List.mem_cons.mp hz with rfl | hz
    · exact hbefore y (List.mem_append_left _ hy) (ha y hy)
    · exact h.2.2 y hy z hz

end

/-- An insertion by a key keeps the order of the keys. -/
theorem sorted_insertAt {f : α → Nat} {x : α} (h : t.toList.Pairwise fun a b => f a ≤ f b) :
    (insertAt (fun y => decide (f x < f y)) x t).toList.Pairwise fun a b => f a ≤ f b := by
  have hs : Searchable (fun y => decide (f x < f y)) t.toList := by
    refine h.imp fun {a b} hle ha => ?_
    exact decide_eq_true (Nat.lt_of_lt_of_le (of_decide_eq_true ha) hle)
  refine pairwise_insertAt hs h (fun y _ hle => ?_) fun y _ hlt => ?_
  · exact Nat.le_of_not_lt (of_decide_eq_false hle)
  · exact (of_decide_eq_true hlt).le

end

/-- Without any order, an insertion still only adds the element. -/
theorem perm_insertAt (goLeft : α → Bool) (x : α) (t : Rbtree α) :
    (insertAt goLeft x t).toList.Perm (x :: t.toList) := by
  have hd : ∀ (t : Rbtree α) (p : Path α),
      (descend goLeft t p).before ++ (descend goLeft t p).after
        = p.before ++ t.toList ++ p.after := by
    intro t
    induction t with
    | nil => intro p; simp [descend, toList]
    | node c l y r ihl ihr =>
      intro p
      rw [descend]
      split
      · simp [ihl, Path.before, Path.after, toList]
      · simp [ihr, Path.before, Path.after, toList]
  rw [insertAt, toList_rbInsertColor]
  have := hd t .root
  simp only [Path.before, Path.after, List.nil_append, List.append_nil] at this
  rw [← this]
  simp only [List.append_assoc]
  exact List.perm_middle

end Rbtree

end AndroidKernel
