import ScriptLexer.Text

/-!
# Lines

Texts and byte sequences are split into lines alike. A line ends in a feed, and a return directly in
front of the feed belongs to the line break; any other return stays. What follows the last feed is a
line only if it is not empty.
-/

namespace ScriptLexer.Lines

variable {α : Type} [DecidableEq α]

/-- Drops each return that stands directly in front of a feed. -/
def dropReturns (lf cr : α) : List α → List α
  | [] => []
  | c :: rest =>
    if c = cr ∧ rest.head? = some lf then dropReturns lf cr rest
    else c :: dropReturns lf cr rest

/-- Splits at feeds. An empty rest behind the last feed is dropped. -/
def split (lf : α) : List α → List (List α)
  | [] => []
  | c :: rest =>
    if c = lf then [] :: split lf rest
    else match split lf rest with
      | [] => [[c]]
      | line :: lines => (c :: line) :: lines

def ofText (text : Text) : List Text := split '\n' (dropReturns '\n' '\r' text)

/-- The lines of a byte sequence. -/
def ofBytes (bytes : List UInt8) : List (List UInt8) := split 10 (dropReturns 10 13 bytes)

/-- No line contains a feed. -/
theorem not_mem_of_mem_split {lf : α} {text line : List α} (h : line ∈ split lf text) :
    lf ∉ line := by
  induction text generalizing line with
  | nil => simp [split] at h
  | cons c rest ih =>
    unfold split at h
    split at h
    · rcases List.mem_cons.mp h with rfl | h
      · simp
      · exact ih h
    · next hc =>
      split at h
      · simp only [List.mem_singleton] at h
        subst h
        simpa using Ne.symm hc
      · next hs =>
        rcases List.mem_cons.mp h with rfl | h
        · have := ih (hs ▸ List.mem_cons_self)
          simpa [this] using Ne.symm hc
        · exact ih (hs ▸ List.mem_cons_of_mem _ h)

end ScriptLexer.Lines
