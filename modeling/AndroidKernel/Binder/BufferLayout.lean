import AndroidKernel.Binder.Buffer

/-!
# The list of buffers

`Layout fin start l` says that the buffers of `l` tile the bytes from `start`
to `fin`: each header starts where the previous buffer's data ends. Everything
else about the list is stated for a decomposition `l₁ ++ x :: l₂` around the
buffer an operation is about; `sizeIn_append_left` and `sizeIn_append_right`
say that an operation which keeps the start of the part after a buffer keeps
that buffer's size.
-/

namespace AndroidKernel.Binder

open List

/-- The buffers tile `[start, fin)`, headers included. -/
def Layout (fin : Nat) : Nat → List BinderBuffer → Prop
  | start, [] => start = fin
  | start, x :: l =>
    x.addr = start ∧ start + headerSize ≤ endOf fin l ∧ Layout fin (endOf fin l) l

variable (fin : Nat) (x : BinderBuffer) (l : List BinderBuffer)

/-- The addresses of the headers, in list order. -/
def addrs : List Nat := l.map (·.addr)

@[simp] theorem addrs_nil : addrs [] = [] := rfl

@[simp] theorem addrs_cons : addrs (x :: l) = x.addr :: addrs l := rfl

@[simp] theorem addrs_append (l₁ l₂ : List BinderBuffer) :
    addrs (l₁ ++ l₂) = addrs l₁ ++ addrs l₂ := map_append

theorem mem_addrs {b : Nat} {l : List BinderBuffer} : b ∈ addrs l ↔ ∃ x ∈ l, x.addr = b := by
  simp [addrs]

@[simp] theorem endOf_nil : endOf fin [] = fin := rfl

@[simp] theorem endOf_cons : endOf fin (x :: l) = x.addr := rfl

theorem endOf_eq_headD : endOf fin l = (addrs l).headD fin := by
  cases l <;> rfl

theorem endOf_append (l₁ l₂ : List BinderBuffer) :
    endOf fin (l₁ ++ l₂) = endOf (endOf fin l₂) l₁ := by
  cases l₁ <;> rfl

/-! ## Tilings -/

section

variable {fin start : Nat} {l₁ l₂ l : List BinderBuffer} {x : BinderBuffer}

theorem layout_append : Layout fin start (l₁ ++ l₂) ↔
      Layout (endOf fin l₂) start l₁ ∧ Layout fin (endOf fin l₂) l₂ ∨
        l₁ = [] ∧ Layout fin start l₂ := by
  induction l₁ generalizing start with
  | nil =>
    simp only [true_and]
    constructor
    · exact .inr
    · rintro (⟨rfl, h⟩ | h)
      · exact h
      · exact h
  | cons x l₁ ih =>
    simp only [cons_append, Layout, endOf_append, ih, reduceCtorEq, false_and, or_false]
    constructor
    · rintro ⟨h1, h2, ⟨h3, h4⟩ | ⟨rfl, h3⟩⟩
      · exact ⟨⟨h1, h2, h3⟩, h4⟩
      · exact ⟨⟨h1, h2, rfl⟩, h3⟩
    · rintro ⟨⟨h1, h2, h3⟩, h4⟩
      exact ⟨h1, h2, .inl ⟨h3, h4⟩⟩

/-- A tiling around one buffer: the part before it, the room for its header and
the part after it. -/
theorem layout_middle : Layout fin start (l₁ ++ x :: l₂) ↔
      Layout x.addr start l₁ ∧ x.addr + headerSize ≤ endOf fin l₂ ∧
        Layout fin (endOf fin l₂) l₂ := by
  rw [layout_append]
  simp only [endOf_cons, Layout, true_and]
  constructor
  · rintro (⟨h1, h2, h3⟩ | ⟨rfl, h1, h2, h3⟩)
    · exact ⟨h1, h2, h3⟩
    · exact ⟨h1.symm, h1 ▸ h2, h3⟩
  · exact .inl

section

variable (h : Layout fin start l)

include h

theorem Layout.le : start ≤ fin := by
  induction l generalizing start with
  | nil => exact h.le
  | cons x l ih =>
    obtain ⟨-, h2, h3⟩ := h
    have := ih h3
    omega

theorem Layout.bounds (hx : x ∈ l) : start ≤ x.addr ∧ x.addr + headerSize ≤ fin := by
  obtain ⟨l₁, l₂, rfl⟩ := append_of_mem hx
  obtain ⟨h1, h2, h3⟩ := layout_middle.mp h
  exact ⟨h1.le, le_trans h2 h3.le⟩

/-- Addresses grow along the list. -/
theorem Layout.pairwise : (addrs l).Pairwise (· < ·) := by
  induction l generalizing start with
  | nil => exact Pairwise.nil
  | cons x l ih =>
    obtain ⟨h1, h2, h3⟩ := h
    rw [addrs_cons, pairwise_cons]
    refine ⟨fun b hb => ?_, ih h3⟩
    obtain ⟨y, hy, rfl⟩ := mem_addrs.mp hb
    have := (h3.bounds hy).1
    simp only [headerSize] at h2
    omega

theorem Layout.nodup : (addrs l).Nodup :=
  h.pairwise.imp fun hlt => hlt.ne

end

theorem Layout.notMem
    (h : Layout fin start (l₁ ++ x :: l₂)) : x.addr ∉ addrs l₁ ∧ x.addr ∉ addrs l₂ := by
  have hnd := h.nodup
  rw [addrs_append, addrs_cons, nodup_middle, nodup_cons, mem_append, not_or] at hnd
  exact hnd.1

end

/-! ## Operations on a list around one buffer -/

section Around

variable {fin b : Nat} {x : BinderBuffer} {l₁ l₂ : List BinderBuffer}

theorem sizeIn_append_right (h : b ∉ addrs l₁) : sizeIn fin b (l₁ ++ l₂) = sizeIn fin b l₂ := by
  induction l₁ with
  | nil => rfl
  | cons y l₁ ih =>
    simp only [addrs_cons, mem_cons, not_or] at h
    rw [cons_append, sizeIn, if_neg (Ne.symm h.1), ih h.2]

theorem sizeIn_append_left (h : b ∈ addrs l₁) :
    sizeIn fin b (l₁ ++ l₂) = sizeIn (endOf fin l₂) b l₁ := by
  induction l₁ with
  | nil => cases h
  | cons y l₁ ih =>
    rw [cons_append, sizeIn, sizeIn, endOf_append]
    split
    · rfl
    next hne =>
      exact ih ((mem_cons.mp h).resolve_left (Ne.symm hne))

theorem prevOf_middle (h : (addrs (l₁ ++ x :: l₂)).Nodup) :
    prevOf x.addr (l₁ ++ x :: l₂) = l₁.getLast? := by
  induction l₁ with
  | nil =>
    cases l₂ with
    | nil => rfl
    | cons z l₂ =>
      -- no later buffer has the address, so the walk ends without a match
      have hnone : ∀ l : List BinderBuffer, x.addr ∉ addrs l.tail → prevOf x.addr l = none := by
        intro l
        induction l with
        | nil => intro _; rfl
        | cons y l ih =>
          cases l with
          | nil => intro _; rfl
          | cons w l =>
            intro hl
            simp only [tail_cons, addrs_cons, mem_cons, not_or] at hl
            rw [prevOf, if_neg (Ne.symm hl.1)]
            exact ih hl.2
      refine hnone (x :: z :: l₂) ?_
      exact (nodup_cons.mp h).1
  | cons y l₁ ih =>
    simp only [cons_append, addrs_cons, nodup_cons] at h
    cases l₁ with
    | nil => simp [prevOf]
    | cons w l₁ =>
      have hw : w.addr ≠ x.addr := by
        have := h.2
        simp only [cons_append, addrs_cons, nodup_cons, addrs_append,
          mem_append, mem_cons, not_or] at this
        exact this.1.2.1
      rw [cons_append, cons_append, prevOf, if_neg hw, ← cons_append, ih h.2]
      simp

section

variable (h : x.addr ∉ addrs l₁)

include h

theorem sizeIn_middle :
    sizeIn fin x.addr (l₁ ++ x :: l₂) = endOf fin l₂ - (x.addr + headerSize) := by
  rw [sizeIn_append_right h, sizeIn, if_pos rfl]

theorem nextOf_middle : nextOf x.addr (l₁ ++ x :: l₂) = l₂.head? := by
  induction l₁ with
  | nil => simp [nextOf]
  | cons y l₁ ih =>
    simp only [addrs_cons, mem_cons, not_or] at h
    rw [cons_append, nextOf, if_neg (Ne.symm h.1), ih h.2]

theorem insertAfter_middle (new : BinderBuffer) :
    insertAfter x.addr new (l₁ ++ x :: l₂) = l₁ ++ x :: new :: l₂ := by
  induction l₁ with
  | nil => simp [insertAfter]
  | cons y l₁ ih =>
    simp only [addrs_cons, mem_cons, not_or] at h
    rw [cons_append, insertAfter, if_neg (Ne.symm h.1), ih h.2, cons_append]

theorem deleteAt_middle : deleteAt x.addr (l₁ ++ x :: l₂) = l₁ ++ l₂ := by
  induction l₁ with
  | nil => simp [deleteAt]
  | cons y l₁ ih =>
    simp only [addrs_cons, mem_cons, not_or] at h
    rw [cons_append, deleteAt, if_neg (Ne.symm h.1), ih h.2, cons_append]

theorem modifyAt_middle (f : BinderBuffer → BinderBuffer) :
    modifyAt x.addr f (l₁ ++ x :: l₂) = l₁ ++ f x :: l₂ := by
  induction l₁ with
  | nil => simp [modifyAt]
  | cons y l₁ ih =>
    simp only [addrs_cons, mem_cons, not_or] at h
    rw [cons_append, modifyAt, if_neg (Ne.symm h.1), ih h.2, cons_append]

theorem find_middle : (l₁ ++ x :: l₂).find? (fun y => y.addr = x.addr) = some x := by
  induction l₁ with
  | nil => simp
  | cons y l₁ ih =>
    simp only [addrs_cons, mem_cons, not_or] at h
    rw [cons_append, find?_cons_of_neg (by simpa using Ne.symm h.1), ih h.2]

end

end Around

section

variable {a : BufferArea} {x : BinderBuffer} (hx : x ∈ a.buffers) (hnd : (addrs a.buffers).Nodup)

include hx hnd

theorem BufferArea.find_eq : a.find x.addr = some x := by
  obtain ⟨l₁, l₂, h⟩ := append_of_mem hx
  rw [BufferArea.find, h]
  refine find_middle ?_
  rw [h, addrs_append, addrs_cons, nodup_middle, nodup_cons, mem_append,
    not_or] at hnd
  exact hnd.1.1

theorem BufferArea.isFree_eq : a.isFree x.addr = x.free := by
  rw [BufferArea.isFree, BufferArea.find_eq hx hnd]

end

end AndroidKernel.Binder
