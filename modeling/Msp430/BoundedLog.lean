/-
# Logs of bounded length

A log takes entries until it is full, and none after that.  In memory it is a run of cells
with a count.  An entry may be stored by a write that is twice as wide as a cell: the other
half falls on the cell behind the entry, which is none of the log yet, and the next entry
writes over it.
-/
import Mathlib

namespace BoundedLog

variable {α σ ε : Type*}

/-! ## Recording -/

/-- Another entry, while there is room. -/
def record (cap : ℕ) (log : List α) (a : α) : List α :=
  if log.length < cap then log ++ [a] else log

theorem record_of_le {cap : ℕ} {log : List α} (h : cap ≤ log.length) (a : α) :
    record cap log a = log := if_neg (Nat.not_lt.mpr h)

/-- A log that has recorded the first entries records one more. -/
theorem record_take (cap : ℕ) (as : List α) (a : α) :
    record cap (as.take cap) a = (as ++ [a]).take cap := by
  rw [List.take_append]
  rcases Nat.lt_or_ge as.length cap with h | h
  · have hroom : 0 < cap - as.length := by omega
    rw [record, if_pos (by rw [List.length_take]; omega), List.take_of_length_le (l := [a])]
    rw [List.length_singleton]
    omega
  · rw [record_of_le (by rw [List.length_take]; omega), Nat.sub_eq_zero_of_le h,
      List.take_zero, List.append_nil]

/-- **The log of a run**: a machine that records the entries of its events keeps the first of
them, as many as there is room for. -/
theorem log_of_run {cap : ℕ} {step : σ → ε → Option σ} {log : σ → List α} {entry : ε → Option α}
    (hstep : ∀ s e s', step s e = some s' →
      log s' = ((entry e).map (record cap (log s))).getD (log s))
    {as : List α} {s s' : σ} {es : List ε} (hs : log s = as.take cap)
    (h : es.foldlM step s = some s') : log s' = (as ++ es.filterMap entry).take cap := by
  induction es generalizing s as with
  | nil =>
    obtain rfl := Option.some.inj h
    rw [List.filterMap_nil, List.append_nil, hs]
  | cons e es ih =>
    rw [List.foldlM_cons] at h
    obtain ⟨s₁, he, hes⟩ := Option.bind_eq_some_iff.mp h
    have hlog := hstep s e s₁ he
    cases hentry : entry e with
    | none =>
      rw [hentry, Option.map_none, Option.getD_none] at hlog
      rw [List.filterMap_cons_none hentry]
      exact ih (hlog.trans hs) hes
    | some a =>
      rw [hentry, Option.map_some, Option.getD_some, hs, record_take] at hlog
      rw [List.filterMap_cons_some hentry, List.append_cons]
      exact ih hlog hes

/-! ## Cells -/

/-- The entries in the first `n` cells. -/
def entries (cells : ℕ → α) (n : ℕ) : List α := (List.range n).map cells

@[simp] theorem length_entries (cells : ℕ → α) (n : ℕ) : (entries cells n).length = n := by
  rw [entries, List.length_map, List.length_range]

theorem mem_entries {cells : ℕ → α} {n : ℕ} {a : α} :
    a ∈ entries cells n ↔ ∃ i < n, cells i = a := by
  simp [entries]

theorem entries_congr {cells cells' : ℕ → α} {n : ℕ} (h : ∀ i < n, cells i = cells' i) :
    entries cells n = entries cells' n :=
  List.map_congr_left fun i hi => h i (List.mem_range.mp hi)

/-- A write to a cell and the one behind it. -/
def storePair (cells : ℕ → α) (i : ℕ) (a b : α) (j : ℕ) : α :=
  if j = i then a else if j = i + 1 then b else cells j

theorem storePair_of_lt (cells : ℕ → α) {i j : ℕ} (a b : α) (h : j < i) :
    storePair cells i a b j = cells j := by
  rw [storePair, if_neg (by omega), if_neg (by omega)]

theorem storePair_of_gt (cells : ℕ → α) {i j : ℕ} (a b : α) (h : i + 1 < j) :
    storePair cells i a b j = cells j := by
  rw [storePair, if_neg (by omega), if_neg (by omega)]

/-- **The write makes one more entry**, and the earlier ones stay. -/
theorem entries_storePair (cells : ℕ → α) (n : ℕ) (a b : α) :
    entries (storePair cells n a b) (n + 1) = entries cells n ++ [a] := by
  have hbelow : entries (storePair cells n a b) n = entries cells n :=
    entries_congr fun i hi => storePair_of_lt cells a b hi
  rw [entries, List.range_succ, List.map_append, ← entries, hbelow]
  exact congrArg (entries cells n ++ [·]) (if_pos rfl)

end BoundedLog
