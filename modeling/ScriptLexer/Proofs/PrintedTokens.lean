import Mathlib.Data.List.Nodup
import ScriptLexer.Proofs.Unscan
import ScriptLexer.Session

/-!
# Reading printed tokens back

What a session writes to the standard output determines the tokens of its script or of its inputs. A kind is
printed without a space, and a lexeme ends in front of the next quote, or behind the next but one if it is a string.
The kind and the lexeme are thus read back from the printed form of a token, and with them its value, which is
printed for the reader only. Whatever a string contains, no other tokens have the same printed form.
-/

namespace ScriptLexer

/-- The token that a lexeme is on a line. -/
def Lexeme.token (a : Lexeme) (line : Nat) : Token := ⟨a.kind, a.text, a.literal, line⟩

/-- Whether tokens are those of lexemes, and behind them the one that ends every script. -/
inductive Listed : List Token → Prop
  | eof (line : Nat) : Listed [Token.eof line]
  | cons (a : Lexeme) (line : Nat) {ts : List Token} (tail : Listed ts) : Listed (a.token line :: ts)

/-- The printed form of tokens, a line for each. -/
def printedTokens (ts : List Token) : Text := ts.flatMap fun t => Text.line t.render

/-- The inputs in front of the first error. -/
def Prompt.submitted : List Reading → List Text
  | .ok text :: items => text :: submitted items
  | _ => []

/-! ### The tokens of a scan -/

/-- A piece that stands for a token is a lexeme. -/
theorem Piece.Precedes.exists_lexeme {x : Piece} {rest : Text} {kind : Token.Kind} {literal : Option Literal}
    (hx : x.Precedes rest) (hmeaning : x.meaning = .lexeme kind literal) : ∃ a : Lexeme, a.piece = x := by
  cases hx with
  | lone | short | lengthened => exact ⟨.symbol _, rfl⟩
  | @word c letters _ hc hletters =>
    cases hk : Keyword.ofWord? (c :: letters) with
    | some k =>
      refine ⟨.reserved k, ?_⟩
      rw [Lexeme.piece, Keyword.ofWord?_eq_some_iff.mp hk]
    | none =>
      refine ⟨.identifier c letters hc hletters ?_, rfl⟩
      intro k h
      rw [h, Keyword.ofWord?_word] at hk
      cases hk
  | string hbody => exact ⟨.string _ hbody, rfl⟩
  | @integer digits _ hne hdigits =>
    rw [meaning] at hmeaning
    split at hmeaning
    · next hlt =>
      rw [Nat.pow_eq] at hlt
      exact ⟨.integer digits hne hdigits (by omega), rfl⟩
    · cases hmeaning
  | decimal hwne hwhole hfne hfraction => exact ⟨.decimal _ _ hwne hwhole hfne hfraction, rfl⟩
  | _ => cases hmeaning

lemma listed_append_eof {xs : List Piece} {source : Text} (h : Divides xs source) (p : Position) (line : Nat) :
    Listed ((place p xs).filterMap Placed.token? ++ [Token.eof line]) := by
  induction h generalizing p with
  | nil => exact .eof line
  | @cons x xs rest head tail ih =>
    have hrest := ih (p.advance x.text)
    rw [place, List.filterMap_cons, Placed.token?, Placed.located?]
    cases hmeaning : x.meaning with
    | lexeme kind literal =>
      obtain ⟨a, rfl⟩ := head.exists_lexeme hmeaning
      rw [a.meaning_piece] at hmeaning
      obtain ⟨rfl, rfl⟩ := Piece.Meaning.lexeme.inj hmeaning
      have hcons := Listed.cons a p.line hrest
      rwa [Lexeme.token, ← a.text_piece] at hcons
    | _ => exact hrest

/-- The tokens of a script are listed. -/
theorem listed_tokens (source : Text) : Listed (scan source).tokens :=
  listed_append_eof (divides_pieces source) _ _

/-! ### Runs of characters that are read back -/

/-- A run of characters of one sort and what stands behind it are read back from both joined. -/
lemma run_append_inj {p : Char → Bool} {run run' rest rest' : Text} (hrun : ∀ d ∈ run, p d)
    (hrun' : ∀ d ∈ run', p d) (hrest : ∀ d ∈ rest.head?, ¬p d) (hrest' : ∀ d ∈ rest'.head?, ¬p d)
    (h : run ++ rest = run' ++ rest') : run = run' ∧ rest = rest' := by
  have htake := congrArg (List.takeWhile p) h
  have hdrop := congrArg (List.dropWhile p) h
  rw [takeWhile_run_append hrun hrest, takeWhile_run_append hrun' hrest'] at htake
  rw [dropWhile_run_append hrun hrest, dropWhile_run_append hrun' hrest'] at hdrop
  exact ⟨htake, hdrop⟩

/-- What stands in front of the first character of some kind is read back. -/
lemma append_cons_inj {c : Char} {t t' r r' : Text} (ht : c ∉ t) (ht' : c ∉ t')
    (h : t ++ c :: r = t' ++ c :: r') : t = t' ∧ r = r' := by
  have hstop : ∀ u : Text, ∀ d ∈ (c :: u).head?, ¬(d != c) = true := by
    rintro u d ⟨⟩
    simp
  obtain ⟨rfl, hr⟩ := run_append_inj (forall_mem_ne ht) (forall_mem_ne ht') (hstop r) (hstop r') h
  exact ⟨rfl, (List.cons.inj hr).2⟩

/-- A numeral is read back in front of what does not begin with a digit. -/
lemma numeral_append_inj {n n' : Nat} {r r' : Text} (hr : ∀ d ∈ r.head?, ¬d.isDigit)
    (hr' : ∀ d ∈ r'.head?, ¬d.isDigit) (h : Text.numeral n ++ r = Text.numeral n' ++ r') : n = n' ∧ r = r' := by
  have hdigits : ∀ m, ∀ d ∈ Text.numeral m, d.isDigit := fun m d hd =>
    Nat.isDigit_of_mem_toDigits (by decide) (by decide) hd
  obtain ⟨hn, hrest⟩ := run_append_inj (hdigits n) (hdigits n') hr hr' h
  have hvalue := congrArg Text.value hn
  rw [Text.value_numeral, Text.value_numeral] at hvalue
  exact ⟨hvalue, hrest⟩

/-! ### Kinds -/

namespace Token.Kind

def all : List Kind :=
  [identifier, string, number, eof] ++ Symbol.all.map symbol ++ Keyword.all.map keyword

lemma mem_all (k : Kind) : k ∈ all := by
  cases k with
  | symbol s => exact List.mem_append_left _ (List.mem_append_right _ (List.mem_map_of_mem s.mem_all))
  | keyword k => exact List.mem_append_right _ (List.mem_map_of_mem k.mem_all)
  | _ => decide

lemma nodup_render : (all.map render).Nodup := by decide +kernel

/-- Kinds are told apart by their names. -/
theorem render_injective {k l : Kind} (h : k.render = l.render) : k = l :=
  List.inj_on_of_nodup_map nodup_render k.mem_all l.mem_all h

lemma space_not_mem_render (k : Kind) : ' ' ∉ k.render := by
  have hall : ∀ l ∈ all, ' ' ∉ l.render := by decide +kernel
  exact hall k k.mem_all

end Token.Kind

/-! ### Lexemes -/

namespace Lexeme

variable {a b : Lexeme} {r s : Text}

lemma piece_eq_of_text (h : a.text = b.text) : a.piece = b.piece := by
  have hpieces := a.pieces_text
  rw [h, b.pieces_text] at hpieces
  exact (List.cons.inj hpieces).1.symm

/-- A lexeme is known by its text. -/
theorem token_eq_of_text (h : a.text = b.text) (line : Nat) : a.token line = b.token line := by
  have hmeaning : a.piece.meaning = b.piece.meaning := congrArg Piece.meaning (piece_eq_of_text h)
  rw [a.meaning_piece, b.meaning_piece] at hmeaning
  obtain ⟨hkind, hliteral⟩ := Piece.Meaning.lexeme.inj hmeaning
  rw [token, token, hkind, h, hliteral]

lemma exists_body_of_kind (h : a.kind = .string) : ∃ body, quote ∉ body ∧ a.text = quote :: body ++ [quote] := by
  cases a with
  | string body hbody => exact ⟨body, hbody, rfl⟩
  | _ => cases h

lemma quote_not_mem_text (h : a.kind ≠ .string) : quote ∉ a.text := fun hquote =>
  not_mem_of_mem_text (ne_string_of_kind h) hquote List.mem_cons_self

/-- Between quotes a lexeme is read back, for its kind shows whether it has quotes of its own. -/
theorem text_append_inj (hkind : a.kind = b.kind) (h : a.text ++ quote :: r = b.text ++ quote :: s) :
    a.text = b.text ∧ r = s := by
  by_cases ha : a.kind = .string
  · obtain ⟨body, hbody, htext⟩ := exists_body_of_kind ha
    obtain ⟨body', hbody', htext'⟩ := exists_body_of_kind (hkind ▸ ha)
    rw [htext, htext', List.append_assoc, List.append_assoc] at h
    obtain ⟨rfl, hrest⟩ := append_cons_inj hbody hbody' (List.cons.inj h).2
    exact ⟨htext.trans htext'.symm, (List.cons.inj hrest).2⟩
  · exact append_cons_inj (quote_not_mem_text ha) (quote_not_mem_text (hkind ▸ ha)) h

lemma kind_ne_eof (a : Lexeme) : a.kind ≠ .eof := by cases a <;> nofun

end Lexeme

/-- Each token of a row with the text of a lexeme is that lexeme. -/
theorem Listed.eq_token {ts : List Token} {t : Token} {a : Lexeme} (h : Listed ts) (ht : t ∈ ts)
    (htext : t.lexeme = a.text) : t = a.token t.line := by
  induction h with
  | eof line =>
    obtain rfl := List.mem_singleton.mp ht
    exact absurd htext.symm a.text_ne_nil
  | cons b line tail ih =>
    rcases List.mem_cons.mp ht with rfl | ht
    · exact Lexeme.token_eq_of_text htext line
    · exact ih ht

/-! ### Printed tokens -/

/-- What is printed behind the line of a token. -/
def printedValue : Option Literal → Text
  | none => []
  | some l => ' ' :: "-> ".toList ++ l.renderQuoted

lemma render_eq_append (t : Token) :
    t.render = "Token ".toList ++ t.kind.render ++ " '".toList ++ t.lexeme ++ "' on line ".toList ++
      Text.numeral t.line ++ printedValue t.literal := by
  unfold Token.render
  rfl

lemma line_render_append (t : Token) (r : Text) :
    Text.line t.render ++ r = "Token ".toList ++ (t.kind.render ++ ' ' :: quote ::
      (t.lexeme ++ quote :: (" on line ".toList ++ (Text.numeral t.line ++
        (printedValue t.literal ++ '\n' :: r))))) := by
  rw [render_eq_append, Text.line]
  simp only [List.append_assoc]
  rfl

lemma head?_printedValue (l : Option Literal) (r : Text) :
    ∀ d ∈ (printedValue l ++ '\n' :: r).head?, ¬d.isDigit := by
  intro d hd
  cases l with
  | none =>
    obtain rfl : '\n' = d := Option.some.inj hd
    decide
  | some l =>
    obtain rfl : ' ' = d := Option.some.inj hd
    decide

section Printed

variable {t u : Token} {r s : Text}

/-- The kind of a printed token and what stands behind it are read back. -/
lemma kind_eq_of_printed (h : Text.line t.render ++ r = Text.line u.render ++ s) :
    t.kind = u.kind ∧
      t.lexeme ++ quote :: (" on line ".toList ++ (Text.numeral t.line ++ (printedValue t.literal ++ '\n' :: r))) =
        u.lexeme ++
          quote :: (" on line ".toList ++ (Text.numeral u.line ++ (printedValue u.literal ++ '\n' :: s))) := by
  rw [line_render_append, line_render_append, List.append_cancel_left_eq] at h
  obtain ⟨hkind, hrest⟩ := append_cons_inj t.kind.space_not_mem_render u.kind.space_not_mem_render h
  exact ⟨Token.Kind.render_injective hkind, (List.cons.inj hrest).2⟩

/-- The line of a printed token and what stands behind the token are read back, once the value is known. -/
lemma line_eq_of_printed {m n : Nat} {l : Option Literal}
    (h : " on line ".toList ++ (Text.numeral m ++ (printedValue l ++ '\n' :: r)) =
      " on line ".toList ++ (Text.numeral n ++ (printedValue l ++ '\n' :: s))) : m = n ∧ r = s := by
  obtain ⟨hline, hrest⟩ := numeral_append_inj (head?_printedValue l r) (head?_printedValue l s)
    (List.append_cancel_left h)
  exact ⟨hline, (List.cons.inj (List.append_cancel_left hrest)).2⟩

/-- The token of a lexeme and what stands behind it are read back from the printed form. -/
theorem token_eq_of_printed {a b : Lexeme} {m n : Nat}
    (h : Text.line (a.token m).render ++ r = Text.line (b.token n).render ++ s) : a.token m = b.token n ∧ r = s := by
  obtain ⟨hkind, hbehind⟩ := kind_eq_of_printed h
  obtain ⟨htext, hrest⟩ := Lexeme.text_append_inj hkind hbehind
  rw [Lexeme.token_eq_of_text htext m] at hrest
  obtain ⟨rfl, rfl⟩ := line_eq_of_printed hrest
  exact ⟨Lexeme.token_eq_of_text htext m, rfl⟩

end Printed

/-- Listed tokens and what stands behind them are read back from their printed forms, however often the strings among
them look like printed tokens. -/
theorem Listed.append_inj {ts us : List Token} {r s : Text} (hts : Listed ts) (hus : Listed us)
    (h : printedTokens ts ++ r = printedTokens us ++ s) : ts = us ∧ r = s := by
  induction hts generalizing us with
  | eof m =>
    cases hus with
    | eof n =>
      obtain ⟨_, hbehind⟩ := kind_eq_of_printed (t := Token.eof m) (u := Token.eof n)
        (by simpa [printedTokens] using h)
      obtain ⟨rfl, rfl⟩ := line_eq_of_printed (l := none) (List.cons.inj hbehind).2
      exact ⟨rfl, rfl⟩
    | cons b n tail =>
      rw [printedTokens, printedTokens, List.flatMap_singleton, List.flatMap_cons, List.append_assoc] at h
      exact absurd (kind_eq_of_printed h).1.symm b.kind_ne_eof
  | @cons a m ts tail ih =>
    cases hus with
    | eof n =>
      rw [printedTokens, printedTokens, List.flatMap_singleton, List.flatMap_cons, List.append_assoc] at h
      exact absurd (kind_eq_of_printed h).1 a.kind_ne_eof
    | @cons b n us hus =>
      rw [printedTokens, printedTokens, List.flatMap_cons, List.flatMap_cons, List.append_assoc,
        List.append_assoc] at h
      obtain ⟨htoken, hrest⟩ := token_eq_of_printed h
      obtain ⟨rfl, rfl⟩ := ih hus hrest
      exact ⟨by rw [htoken], rfl⟩

/-! ### Sessions -/

/-- What a prompt writes for the inputs that it runs. -/
lemma stdout_perform (threshold : Option Log.Level) (actions : List Prompt.Action) :
    (Session.perform threshold actions).stdout =
      (Prompt.submitted (actions.filterMap Prompt.Action.reading?)).flatMap fun text =>
        printedTokens (scan text).tokens ++ Session.promptSign := by
  induction actions with
  | nil => rfl
  | cons a actions ih =>
    cases a with
    | probe text => exact ih
    | submit text =>
      have hreading : Prompt.Action.reading? (.submit text) = some (.ok text) := rfl
      rw [List.filterMap_cons_some hreading, Prompt.submitted, List.flatMap_cons, ← ih]
      rfl
    | fail e => rfl

lemma stdout_prompt (threshold : Option Log.Level) (lines : List Reading) :
    (Session.prompt threshold lines).stdout = Session.promptSign ++
      (Prompt.submitted (Prompt.inputs lines)).flatMap fun text =>
        printedTokens (scan text).tokens ++ Session.promptSign := by
  rw [Prompt.inputs, ← stdout_perform threshold]
  rfl

/-- What a prompt writes for a row of inputs determines the tokens of each of them. -/
theorem map_tokens_eq_iff {xs ys : List Text} :
    ((xs.flatMap fun text => printedTokens (scan text).tokens ++ Session.promptSign) =
      ys.flatMap fun text => printedTokens (scan text).tokens ++ Session.promptSign) ↔
      xs.map (fun text => (scan text).tokens) = ys.map fun text => (scan text).tokens := by
  constructor
  · intro h
    induction xs generalizing ys with
    | nil =>
      cases ys with
      | nil => rfl
      | cons y ys => simp [Session.promptSign] at h
    | cons x xs ih =>
      cases ys with
      | nil => simp [Session.promptSign] at h
      | cons y ys =>
        rw [List.flatMap_cons, List.flatMap_cons, List.append_assoc, List.append_assoc] at h
        obtain ⟨htokens, hrest⟩ := (listed_tokens x).append_inj (listed_tokens y) h
        rw [List.map_cons, List.map_cons, htokens, ih (List.append_cancel_left hrest)]
  · intro h
    have hprinted := congrArg (List.flatMap fun ts => printedTokens ts ++ Session.promptSign) h
    rwa [List.flatMap_map, List.flatMap_map] at hprinted

/-- Two scripts write the same to the standard output exactly if they have the same tokens, and two prompts exactly if
the inputs that they run have the same tokens, input for input. -/
theorem stdout_eq_iff_tokens (threshold threshold' : Option Log.Level) :
    (∀ path path' source source' : Text,
      (Session.script threshold path (.ok source)).stdout = (Session.script threshold' path' (.ok source')).stdout ↔
        (scan source).tokens = (scan source').tokens) ∧
    ∀ lines lines' : List Reading,
      (Session.prompt threshold lines).stdout = (Session.prompt threshold' lines').stdout ↔
        (Prompt.submitted (Prompt.inputs lines)).map (fun text => (scan text).tokens) =
          (Prompt.submitted (Prompt.inputs lines')).map fun text => (scan text).tokens := by
  constructor
  · intro path path' source source'
    constructor
    · intro h
      have hprinted : printedTokens (scan source).tokens ++ [] = printedTokens (scan source').tokens ++ [] := by
        rw [List.append_nil, List.append_nil]
        exact h
      exact ((listed_tokens source).append_inj (listed_tokens source') hprinted).1
    · exact congrArg printedTokens
  · intro lines lines'
    rw [stdout_prompt, stdout_prompt, List.append_cancel_left_eq, map_tokens_eq_iff]

end ScriptLexer
