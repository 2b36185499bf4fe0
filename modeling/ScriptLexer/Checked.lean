/-!
# Results and defects

A computation that could go wrong gives a result or a defect. Loops are such computations too, since a loop may come
no nearer to its end. So is counting: some things are counted in 32 bits, with a sign, and a counter that is counted
beyond the greatest or the least number of that size goes on from the other end, or this is a defect; which of the two
is settled when the program is built.
-/

namespace ScriptLexer

/-- What can be wrong with a computation. -/
inductive Defect
  /-- a slice is taken while the offsets of the cursor are out of order, or not between characters -/
  | disorder
  /-- the slice that is taken does not exist -/
  | slice
  /-- digits that have been passed are not read as a number -/
  | numeral
  /-- a turn of a loop comes no nearer to the end of the script, so that the loop may go on for ever -/
  | standstill
  /-- a counter is counted beyond the last of its values -/
  | overflow
  deriving DecidableEq, Repr

/-- A result or a defect. -/
abbrev Checked := Except Defect

namespace Checked

variable {α : Type}

/-- Goes on from one state to the next as long as there is one. Each must have less left to do than the one before. -/
def loop (next : α → Checked (Option α)) (left : α → Nat) (a : α) : Checked α := do
  match ← next a with
  | none => pure a
  | some b => if left b < left a then loop next left b else throw .standstill
termination_by left a

variable {next : α → Checked (Option α)} {left : α → Nat} {a b : α} {e : Defect}

theorem loop_of_none (h : next a = pure none) : loop next left a = pure a := by
  rw [loop, h, pure_bind]

theorem loop_of_some (h : next a = pure (some b)) (hlt : left b < left a) :
    loop next left a = loop next left b := by
  rw [loop, h, pure_bind]
  exact if_pos hlt

end Checked

/-- What becomes of a counter that is counted beyond its last value. -/
inductive Overflow
  /-- it goes on from the other end -/
  | wraps
  /-- this is a defect -/
  | fails
  deriving DecidableEq, Repr

namespace Overflow

def up (o : Overflow) (n : Int32) : Checked Int32 :=
  if o = .fails ∧ n = Int32.maxValue then throw .overflow else pure (n + 1)

def down (o : Overflow) (n : Int32) : Checked Int32 :=
  if o = .fails ∧ n = Int32.minValue then throw .overflow else pure (n - 1)

/-- Counts the members of a list. -/
def count {α : Type} (o : Overflow) (xs : List α) : Checked Int32 := xs.foldlM (fun n _ => o.up n) 0

end Overflow

end ScriptLexer
