/-
# Prefix codes

A codec writes a value as a list of symbols and reads a value off the front of a list, and reads
exactly what it has written.  That alone makes it a prefix code: what it writes is determined by
any list that begins with it, so that values are written one behind the other.
-/
import Mathlib

variable {α β : Type*}

/-- A writer and a reader of values that agree. -/
structure Codec (α β : Type*) where
  write : α → List β
  read : List β → Option (α × List β)
  read_iff : ∀ bs a rest, read bs = some (a, rest) ↔ bs = write a ++ rest

namespace Codec

/-! ## One value -/

/-- What is written is read back, whatever follows it. -/
theorem read_write (c : Codec α β) (a : α) (rest : List β) :
    c.read (c.write a ++ rest) = some (a, rest) :=
  (c.read_iff _ a rest).mpr rfl

/-! ## Sequences of values -/

/-- Write the values one behind the other. -/
def writeAll (c : Codec α β) (as : List α) : List β := as.flatMap c.write

theorem writeAll_append (c : Codec α β) (as bs : List α) :
    c.writeAll (as ++ bs) = c.writeAll as ++ c.writeAll bs :=
  List.flatMap_append

end Codec
