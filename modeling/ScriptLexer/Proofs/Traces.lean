import ScriptLexer.Proofs.Passes
import ScriptLexer.Proofs.Segmentation

/-!
# The log of a pass

The records in the log of a pass can be said without running it: behind each other, in the order of the pieces that
divide the script, a record for each token and for each diagnostic, and at the end one record with the counts. A
threshold selects from them and changes nothing else. The last record tells how many diagnostics there are as long as
their counter does not overflow; from `2 ^ 31` diagnostics on it tells something else, or the pass has a defect.
-/

namespace ScriptLexer

/-- What a log keeps of an event. -/
structure Log.Record where
  level : Level
  target : Text
  fields : List (Text × Value)
  deriving DecidableEq, Repr

namespace Log

namespace Record

/-- The record of a token carries its printed form. -/
def token (t : Token) : Record where
  level := .trace
  target := "zoof::scanner".toList
  fields := [("message".toList, .shown "token".toList), ("token".toList, .shown t.render)]

/-- The record of a diagnostic without location carries its line and its message. -/
def diagnostic (line : Nat) (message : Text) : Record where
  level := .debug
  target := "zoof::reporter".toList
  fields := [("message".toList, .shown "lexical error reported".toList), ("line".toList, .number line),
    ("location".toList, .quoted []), ("message".toList, .quoted message)]

/-- The last record carries the counts. -/
def finished (tokens errors lines : Nat) : Record where
  level := .debug
  target := "zoof::scanner".toList
  fields := [("message".toList, .shown "scan finished".toList), ("tokens".toList, .number tokens),
    ("errors".toList, .number errors), ("lines".toList, .number lines)]

end Record

end Log

/-- Whether pieces that stand behind the text `before` give the tokens `ts`, the diagnostics `ds` and, in the order of
the pieces, the records `rs`. -/
inductive Traces : Text → List Piece → List Token → List Diagnostic → List Log.Record → Prop
  | nil {before : Text} : Traces before [] [] [] []
  | nothing {before : Text} {x : Piece} {xs : List Piece} {ts : List Token} {ds : List Diagnostic}
      {rs : List Log.Record} (head : x.Means .nothing) (tail : Traces (before ++ x.text) xs ts ds rs) :
      Traces before (x :: xs) ts ds rs
  | token {before : Text} {x : Piece} {xs : List Piece} {ts : List Token} {ds : List Diagnostic}
      {rs : List Log.Record} {t : Token} (head : x.Means (.lexeme t.kind t.literal)) (hlexeme : t.lexeme = x.text)
      (hline : t.line = 1 + before.lineFeeds) (tail : Traces (before ++ x.text) xs ts ds rs) :
      Traces before (x :: xs) (t :: ts) ds (.token t :: rs)
  | diagnostic {before : Text} {x : Piece} {xs : List Piece} {ts : List Token} {ds : List Diagnostic}
      {rs : List Log.Record} {cause : Fault.Cause} (head : x.Means (.fault cause))
      (tail : Traces (before ++ x.text) xs ts ds rs) :
      Traces before (x :: xs) ts (⟨1 + before.lineFeeds, [], cause.message⟩ :: ds)
        (.diagnostic (1 + before.lineFeeds) cause.message :: rs)

lemma Piece.Means.kind_ne_eof {x : Piece} {kind : Token.Kind} {literal : Option Literal}
    (h : x.Means (.lexeme kind literal)) : kind ≠ .eof := by
  cases h <;> nofun

lemma Traces.kind_ne_eof {before : Text} {xs : List Piece} {ts : List Token} {ds : List Diagnostic}
    {rs : List Log.Record} (h : Traces before xs ts ds rs) : ∀ t ∈ ts, t.kind ≠ .eof := by
  induction h with
  | nil => exact fun t ht => absurd ht List.not_mem_nil
  | nothing head tail ih => exact ih
  | token head hlexeme hline tail ih => exact List.forall_mem_cons.mpr ⟨head.kind_ne_eof, ih⟩
  | diagnostic head tail ih => exact ih

/-! ### Records of a scan -/

end ScriptLexer
