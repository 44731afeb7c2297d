/-
# Linked lists in a heap

A heap hands out the addresses of its cells in order, none of them twice.  In it a
null-terminated list is a chain of nodes, each with the address of the next one.  The chain
below an address is unique and repeats no address, so that walking to its last node ends; a
node is appended behind the last one and taken off at the head.
-/
import Mathlib

namespace HeapList

variable {α β : Type*}

/-! ## Heaps -/

/-- Cells by address; from `top` on there are none. -/
structure Heap (β : Type*) where
  cells : ℕ → Option β
  top : ℕ
  cells_of_le : ∀ a, top ≤ a → cells a = none

namespace Heap

/-- The heap without cells. -/
def empty : Heap β := ⟨fun _ => none, 0, fun _ _ => rfl⟩

/-- A new cell, at the address `top`. -/
def alloc (h : Heap β) (c : β) : Heap β where
  cells a := if a = h.top then some c else h.cells a
  top := h.top + 1
  cells_of_le a ha := by
    rw [if_neg (by omega)]
    exact h.cells_of_le a (by omega)

/-- Change the cell at an address, if there is one. -/
def modify (h : Heap β) (a : ℕ) (f : β → β) : Heap β where
  cells b := if b = a then (h.cells b).map f else h.cells b
  top := h.top
  cells_of_le b hb := by
    rw [h.cells_of_le b hb]
    split_ifs <;> rfl

/-- Give a cell back. -/
def free (h : Heap β) (a : ℕ) : Heap β where
  cells b := if b = a then none else h.cells b
  top := h.top
  cells_of_le b hb := by
    rw [h.cells_of_le b hb]
    split_ifs <;> rfl

theorem lt_top {h : Heap β} {a : ℕ} {c : β} (hc : h.cells a = some c) : a < h.top := by
  by_contra hle
  rw [h.cells_of_le a (by omega)] at hc
  exact absurd hc (by simp)

theorem cells_alloc_top (h : Heap β) (c : β) : (h.alloc c).cells h.top = some c := if_pos rfl

/-- An allocation leaves the cells there are. -/
theorem cells_alloc {h : Heap β} {a : ℕ} {b : β} (hb : h.cells a = some b) (c : β) :
    (h.alloc c).cells a = some b := by
  have hlt := lt_top hb
  exact (if_neg (by omega)).trans hb

theorem cells_modify_of_ne (h : Heap β) {a b : ℕ} (f : β → β) (hb : b ≠ a) :
    (h.modify a f).cells b = h.cells b := if_neg hb

theorem cells_free_of_ne (h : Heap β) {a b : ℕ} (hb : b ≠ a) :
    (h.free a).cells b = h.cells b := if_neg hb

end Heap

/-! ## Chains -/

/-- A value with the address of the next node. -/
structure Node (α : Type*) where
  val : α
  next : Option ℕ

/-- The list from an address on, each value with the address of its node. -/
def Chain (h : Heap (Node α)) : Option ℕ → List (ℕ × α) → Prop
  | p, [] => p = none
  | p, (a, x) :: l => p = some a ∧ ∃ q, h.cells a = some ⟨x, q⟩ ∧ Chain h q l

/-- There is one list from an address on. -/
theorem Chain.unique {h : Heap (Node α)} {p : Option ℕ} {l l' : List (ℕ × α)}
    (hl : Chain h p l) (hl' : Chain h p l') : l = l' := by
  induction l generalizing p l' with
  | nil =>
    cases l' with
    | nil => rfl
    | cons y l' => exact absurd (hl.symm.trans hl'.1) (by simp)
  | cons x l ih =>
    cases l' with
    | nil => exact absurd (hl'.symm.trans hl.1) (by simp)
    | cons y l' =>
      obtain ⟨a, x⟩ := x
      obtain ⟨b, y⟩ := y
      obtain ⟨rfl, q, hq, htail⟩ := hl
      obtain ⟨hab, q', hq', htail'⟩ := hl'
      obtain rfl := Option.some.inj hab
      rw [hq] at hq'
      obtain ⟨rfl, rfl⟩ := Node.mk.inj (Option.some.inj hq')
      rw [ih htail htail']

/-- The end of a list is the list from the address of its first node on. -/
theorem Chain.suffix {h : Heap (Node α)} {p : Option ℕ} {k l : List (ℕ × α)} {a : ℕ} {x : α}
    (hl : Chain h p (k ++ (a, x) :: l)) : Chain h (some a) ((a, x) :: l) := by
  induction k generalizing p with
  | nil => exact ⟨rfl, hl.2⟩
  | cons y k ih =>
    obtain ⟨-, q, -, htail⟩ := hl
    exact ih htail

/-- No node occurs twice. -/
theorem Chain.nodup {h : Heap (Node α)} {p : Option ℕ} {l : List (ℕ × α)} (hl : Chain h p l) :
    (l.map Prod.fst).Nodup := by
  induction l generalizing p with
  | nil => exact List.nodup_nil
  | cons y l ih =>
    obtain ⟨a, x⟩ := y
    obtain ⟨rfl, q, hq, htail⟩ := hl
    rw [List.map_cons, List.nodup_cons]
    refine ⟨fun hmem => ?_, ih htail⟩
    -- from a second occurrence on, the list would be shorter than itself
    obtain ⟨⟨b, y⟩, hb, rfl⟩ := List.mem_map.mp hmem
    obtain ⟨k, l', rfl⟩ := List.append_of_mem hb
    have hwhole : Chain h (some b) ((b, x) :: (k ++ (b, y) :: l')) := ⟨rfl, q, hq, htail⟩
    have hlen := congrArg List.length (hwhole.unique htail.suffix)
    simp at hlen
    omega

theorem Chain.exists_cell {h : Heap (Node α)} {p : Option ℕ} {l : List (ℕ × α)}
    (hl : Chain h p l) {a : ℕ} (ha : a ∈ l.map Prod.fst) : ∃ c, h.cells a = some c := by
  obtain ⟨⟨b, y⟩, hb, rfl⟩ := List.mem_map.mp ha
  obtain ⟨k, l', rfl⟩ := List.append_of_mem hb
  obtain ⟨-, q, hq, -⟩ := hl.suffix
  exact ⟨_, hq⟩

/-- A list is no longer than the heap. -/
theorem Chain.length_le {h : Heap (Node α)} {p : Option ℕ} {l : List (ℕ × α)}
    (hl : Chain h p l) : l.length ≤ h.top := by
  have hsub : l.map Prod.fst ⊆ List.range h.top := by
    intro a ha
    obtain ⟨c, hc⟩ := hl.exists_cell ha
    exact List.mem_range.mpr (Heap.lt_top hc)
  have hle := (List.Nodup.subperm hl.nodup hsub).length_le
  simpa using hle

/-- A list does not see changes elsewhere. -/
theorem Chain.congr {h h' : Heap (Node α)} {p : Option ℕ} {l : List (ℕ × α)}
    (hl : Chain h p l) (hcells : ∀ a ∈ l.map Prod.fst, h'.cells a = h.cells a) :
    Chain h' p l := by
  induction l generalizing p with
  | nil => exact hl
  | cons y l ih =>
    obtain ⟨a, x⟩ := y
    obtain ⟨rfl, q, hq, htail⟩ := hl
    refine ⟨rfl, q, ?_, ih htail fun b hb => hcells b (List.mem_cons_of_mem _ hb)⟩
    rw [hcells a List.mem_cons_self, hq]

theorem Chain.alloc {h : Heap (Node α)} {p : Option ℕ} {l : List (ℕ × α)} (hl : Chain h p l)
    (c : Node α) : Chain (h.alloc c) p l := by
  refine hl.congr fun a ha => ?_
  obtain ⟨b, hb⟩ := hl.exists_cell ha
  rw [hb, Heap.cells_alloc hb]

/-! ## The last node -/

/-- `while (cur->next != NULL) cur = cur->next;` from an address on; `none` when it does not
end within `fuel` nodes or leaves the heap. -/
def lastFrom (h : Heap (Node α)) : ℕ → ℕ → Option ℕ
  | 0, _ => none
  | fuel + 1, a => (h.cells a).bind fun c =>
      match c.next with
      | none => some a
      | some b => lastFrom h fuel b

/-- **The walk ends at the last node.** -/
theorem lastFrom_chain {h : Heap (Node α)} {l : List (ℕ × α)} {a b : ℕ} {y : α}
    (hl : Chain h (some a) (l ++ [(b, y)])) {fuel : ℕ} (hfuel : l.length < fuel) :
    lastFrom h fuel a = some b := by
  induction l generalizing a fuel with
  | nil =>
    obtain ⟨hab, q, hq, hnil⟩ := hl
    obtain rfl := Option.some.inj hab
    cases fuel with
    | zero => omega
    | succ fuel =>
      rw [lastFrom, hq, show q = none from hnil]
      rfl
  | cons z l ih =>
    obtain ⟨c, z⟩ := z
    obtain ⟨hac, q, hq, htail⟩ := hl
    obtain rfl := Option.some.inj hac
    cases fuel with
    | zero => omega
    | succ fuel =>
      have hlt : l.length < fuel := by simpa using hfuel
      obtain ⟨d, rfl⟩ : ∃ d, q = some d := by
        cases l with
        | nil => exact ⟨_, htail.1⟩
        | cons e l => exact ⟨_, htail.1⟩
      rw [lastFrom, hq]
      exact ih htail hlt

/-! ## Appending and taking off -/

/-- The heap in which a new node stands behind the one at `b`. -/
def appendAfter (h : Heap (Node α)) (b : ℕ) (y : α) : Heap (Node α) :=
  (h.modify b fun c => { c with next := some h.top }).alloc ⟨y, none⟩

/-- **Appending behind the last node.** -/
theorem Chain.appendAfter {h : Heap (Node α)} {p : Option ℕ} {l : List (ℕ × α)} {b : ℕ} {x : α}
    (hl : Chain h p (l ++ [(b, x)])) (y : α) :
    Chain (appendAfter h b y) p (l ++ [(b, x)] ++ [(h.top, y)]) := by
  have hnodup := hl.nodup
  have hlast := Chain.suffix (k := l) hl
  obtain ⟨-, r, hr, hnil⟩ := hlast
  have hb : (HeapList.appendAfter h b y).cells b = some ⟨x, some h.top⟩ := by
    refine Heap.cells_alloc ?_ _
    simp [Heap.modify, hr]
  have htop : (HeapList.appendAfter h b y).cells h.top = some ⟨y, none⟩ :=
    Heap.cells_alloc_top (h.modify b _) _
  induction l generalizing p with
  | nil =>
    obtain ⟨rfl, -⟩ := hl
    exact ⟨rfl, _, hb, rfl, _, htop, rfl⟩
  | cons z l ih =>
    obtain ⟨a, z⟩ := z
    obtain ⟨rfl, q, hq, htail⟩ := hl
    rw [List.cons_append, List.map_cons, List.nodup_cons] at hnodup
    refine ⟨rfl, q, ?_, ih htail hnodup.2⟩
    have hne : a ≠ b := by
      rintro rfl
      exact hnodup.1 (by simp)
    exact Heap.cells_alloc ((Heap.cells_modify_of_ne h _ hne).trans hq) _

/-- **Taking the first node off.** -/
theorem Chain.free_head {h : Heap (Node α)} {p : Option ℕ} {l : List (ℕ × α)} {a : ℕ} {x : α}
    (hl : Chain h p ((a, x) :: l)) :
    ∃ q, p = some a ∧ h.cells a = some ⟨x, q⟩ ∧ Chain (h.free a) q l := by
  have hnodup := hl.nodup
  obtain ⟨rfl, q, hq, htail⟩ := hl
  rw [List.map_cons, List.nodup_cons] at hnodup
  refine ⟨q, rfl, hq, htail.congr fun b hb => ?_⟩
  refine Heap.cells_free_of_ne h ?_
  rintro rfl
  exact hnodup.1 hb

end HeapList
