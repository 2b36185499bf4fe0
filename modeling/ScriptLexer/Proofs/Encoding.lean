import Mathlib.Data.List.Induction
import Mathlib.Tactic.Lemma
import ScriptLexer.Reading

/-!
# Text and bytes

A text is written in UTF-8, one character after the other. A byte below 128 is a character of its own there and no
part of another one, so bytes can be cut at such a byte: they encode a text exactly if both sides do. Line breaks are
bytes of this sort. Splitting into lines is therefore the same before and after the bytes are decoded, and bytes
encode a text exactly if each of their lines does.
-/

namespace ScriptLexer

/-- The bytes of a text in UTF-8. -/
def Text.utf8 (text : Text) : List UInt8 := text.flatMap String.utf8EncodeChar

/-- Whether bytes are those of a text. -/
def Encoded (bytes : List UInt8) : Prop := ∃ text : Text, text.utf8 = bytes

/-! ### Cutting bytes -/

/-- A byte below 128 is a character of its own. -/
lemma eq_of_mem_utf8EncodeChar {c : Char} {b : UInt8} (hb : b.toNat < 128) (h : b ∈ String.utf8EncodeChar c) :
    String.utf8EncodeChar c = [b] ∧ c = Char.ofNat b.toNat := by
  unfold String.utf8EncodeChar at h ⊢
  by_cases hc : c.val.toNat ≤ 0x7f
  · rw [if_pos hc] at h ⊢
    obtain rfl := List.mem_singleton.mp h
    have hbyte : (UInt8.ofNat c.val.toNat).toNat = c.val.toNat := by
      rw [UInt8.toNat_ofNat']
      omega
    rw [hbyte]
    exact ⟨rfl, (Char.ofNat_toNat c).symm⟩
  · -- the bytes of all other characters are 128 and above
    exfalso
    have hne : ∀ n : Nat, 128 ≤ n → n < 256 → b ≠ UInt8.ofNat n := by
      rintro n hlow hhigh rfl
      rw [UInt8.toNat_ofNat'] at hb
      omega
    rw [if_neg hc] at h
    split at h
    · simp only [List.mem_cons, List.not_mem_nil, or_false] at h
      rcases h with h | h <;> exact hne _ (by omega) (by omega) h
    split at h
    · simp only [List.mem_cons, List.not_mem_nil, or_false] at h
      rcases h with h | h | h <;> exact hne _ (by omega) (by omega) h
    · simp only [List.mem_cons, List.not_mem_nil, or_false] at h
      rcases h with h | h | h | h <;> exact hne _ (by omega) (by omega) h

lemma utf8EncodeChar_ofNat {b : UInt8} (hb : b.toNat < 128) : String.utf8EncodeChar (Char.ofNat b.toNat) = [b] := by
  have hall : ∀ n < 128, String.utf8EncodeChar (Char.ofNat n) = [UInt8.ofNat n] := by decide
  rw [hall b.toNat hb, UInt8.ofNat_toNat]

namespace Text

lemma utf8_append (s t : Text) : utf8 (s ++ t) = utf8 s ++ utf8 t := List.flatMap_append

lemma utf8_append_cons (s : Text) (c : Char) (t : Text) :
    utf8 (s ++ c :: t) = utf8 s ++ (String.utf8EncodeChar c ++ utf8 t) := by
  rw [utf8_append, utf8, utf8, utf8, List.flatMap_cons]

lemma utf8_eq_nil_iff {text : Text} : utf8 text = [] ↔ text = [] := by
  rw [utf8, List.flatMap_eq_nil_iff, List.eq_nil_iff_forall_not_mem]
  simp

/-- Where the bytes of a text have a byte below 128, the text can be cut. -/
theorem exists_append_cons {text : Text} {a b : List UInt8} {x : UInt8} (hx : x.toNat < 128)
    (h : text.utf8 = a ++ x :: b) : ∃ s t : Text, text = s ++ Char.ofNat x.toNat :: t ∧ s.utf8 = a ∧ t.utf8 = b := by
  induction text generalizing a with
  | nil => exact absurd h.symm (List.append_ne_nil_of_right_ne_nil a (List.cons_ne_nil x b))
  | cons c text ih =>
    rw [utf8, List.flatMap_cons, ← utf8] at h
    rcases List.append_eq_append_iff.mp h with ⟨a', rfl, hrest⟩ | ⟨b', hchar, hrest⟩
    · obtain ⟨s, t, rfl, rfl, rfl⟩ := ih hrest
      exact ⟨c :: s, t, rfl, rfl, rfl⟩
    · cases b' with
      | nil =>
        rw [List.append_nil] at hchar
        obtain ⟨s, t, rfl, hs, rfl⟩ := ih (a := []) hrest.symm
        obtain rfl := utf8_eq_nil_iff.mp hs
        exact ⟨[c], t, rfl, by rw [utf8, List.flatMap_singleton, hchar], rfl⟩
      | cons y b' =>
        obtain ⟨rfl, rfl⟩ := List.cons.inj hrest
        -- the byte belongs to the first character, and there is no other byte in it
        obtain ⟨hsingle, hc⟩ := eq_of_mem_utf8EncodeChar (c := c) hx (hchar ▸ by simp)
        rw [hsingle] at hchar
        obtain ⟨rfl, hchar⟩ | ⟨_, rfl, hnil⟩ := List.cons_eq_append_iff.mp hchar
        · obtain ⟨_, rfl⟩ := List.cons.inj hchar
          exact ⟨[], text, by rw [List.nil_append, hc], rfl, rfl⟩
        · simp at hnil

lemma lineFeed_not_mem_utf8 {text : Text} (h : '\n' ∉ text) : 10 ∉ text.utf8 := by
  intro hmem
  obtain ⟨a, b, hab⟩ := List.append_of_mem hmem
  obtain ⟨s, t, rfl, _, _⟩ := exists_append_cons (by decide) hab
  exact h (List.mem_append_right s List.mem_cons_self)

end Text

/-- Bytes on both sides of one below 128 encode texts exactly if all of them do. -/
theorem encoded_append_cons_iff {a b : List UInt8} {x : UInt8} (hx : x.toNat < 128) :
    Encoded (a ++ x :: b) ↔ Encoded a ∧ Encoded b := by
  constructor
  · rintro ⟨text, h⟩
    obtain ⟨s, t, _, hs, ht⟩ := Text.exists_append_cons hx h
    exact ⟨⟨s, hs⟩, t, ht⟩
  · rintro ⟨⟨s, rfl⟩, t, rfl⟩
    refine ⟨s ++ Char.ofNat x.toNat :: t, ?_⟩
    rw [Text.utf8_append_cons, utf8EncodeChar_ofNat hx, List.singleton_append]

/-! ### Lines of bytes -/

namespace Lines

section Generic

variable {α : Type} [DecidableEq α] {lf cr : α}

/-- A line without a return at its end. -/
def chomp (cr : α) (line : List α) : List α := if line.getLast? = some cr then line.dropLast else line

lemma chomp_concat (cr : α) (line : List α) : chomp cr (line ++ [cr]) = line := by
  rw [chomp, if_pos List.getLast?_concat, List.dropLast_concat]

lemma chomp_of_getLast?_ne {line : List α} (h : line.getLast? ≠ some cr) : chomp cr line = line := if_neg h

lemma chomp_cons {c : α} {line : List α} (h : ¬(c = cr ∧ line = [])) : chomp cr (c :: line) = c :: chomp cr line := by
  cases line with
  | nil =>
    have hc : c ≠ cr := fun hc => h ⟨hc, rfl⟩
    rw [chomp_of_getLast?_ne (by simpa using hc), chomp_of_getLast?_ne (by simp)]
  | cons d line =>
    rw [chomp, chomp, List.getLast?_cons_cons, List.dropLast_cons_cons]
    split <;> rfl

/-- The first line ends at the first feed, and loses a return there. -/
theorem split_dropReturns_append (hne : cr ≠ lf) {line : List α} (hline : lf ∉ line) (rest : List α) :
    split lf (dropReturns lf cr (line ++ lf :: rest)) = chomp cr line :: split lf (dropReturns lf cr rest) := by
  induction line with
  | nil =>
    rw [List.nil_append, dropReturns, if_neg (fun h => hne h.1.symm), split, if_pos rfl]
    rfl
  | cons c line ih =>
    obtain ⟨hc, htail⟩ := not_or.mp (List.mem_cons.not.mp hline)
    rw [List.cons_append, dropReturns]
    by_cases hreturn : c = cr ∧ line = []
    · obtain ⟨rfl, rfl⟩ := hreturn
      rw [if_pos ⟨rfl, rfl⟩, ih htail]
      have hchomp := chomp_concat c []
      rw [List.nil_append] at hchomp
      rw [hchomp]
      rfl
    · have hhead : ¬(c = cr ∧ (line ++ lf :: rest).head? = some lf) := by
        rintro ⟨rfl, h⟩
        cases line with
        | nil => exact hreturn ⟨rfl, rfl⟩
        | cons d line => exact htail (by simpa using Or.inl (Option.some.inj h).symm)
      rw [if_neg hhead, split, if_neg (Ne.symm hc), ih htail, chomp_cons hreturn]

lemma dropReturns_of_not_mem {line : List α} (hline : lf ∉ line) : dropReturns lf cr line = line := by
  induction line with
  | nil => rfl
  | cons c line ih =>
    obtain ⟨_, htail⟩ := not_or.mp (List.mem_cons.not.mp hline)
    rw [dropReturns, if_neg (fun h => htail (List.mem_of_mem_head? h.2)), ih htail]

/-- Without a feed there is a single line, which keeps a return at its end. -/
lemma split_dropReturns_of_not_mem {line : List α} (hline : lf ∉ line) (hempty : line ≠ []) :
    split lf (dropReturns lf cr line) = [line] := by
  rw [dropReturns_of_not_mem hline]
  induction line with
  | nil => exact absurd rfl hempty
  | cons c line ih =>
    obtain ⟨hc, htail⟩ := not_or.mp (List.mem_cons.not.mp hline)
    rw [split, if_neg (Ne.symm hc)]
    by_cases hnil : line = []
    · rw [hnil]
      rfl
    · rw [ih htail hnil]

/-- A list is a single line, or a first line and a feed come in front of others. -/
theorem first_line_induction (lf : α) {motive : List α → Prop} (last : ∀ line, lf ∉ line → motive line)
    (cons : ∀ line rest, lf ∉ line → motive rest → motive (line ++ lf :: rest)) (text : List α) : motive text :=
  if hfeed : lf ∈ text then by
    obtain ⟨line, rest, htext, hline⟩ := List.eq_append_cons_of_mem hfeed
    rw [htext]
    exact cons line rest hline (first_line_induction lf last cons rest)
  else last text hfeed
termination_by text.length
decreasing_by
  rw [htext, List.length_append, List.length_cons]
  omega

end Generic

lemma utf8_chomp (line : Text) : Text.utf8 (chomp '\r' line) = chomp 13 (Text.utf8 line) := by
  by_cases hline : line.getLast? = some '\r'
  · obtain ⟨front, rfl⟩ := List.getLast?_eq_some_iff.mp hline
    have hreturn : Text.utf8 ['\r'] = [13] := by decide
    rw [chomp_concat, Text.utf8_append, hreturn, chomp_concat]
  · rw [chomp_of_getLast?_ne hline, chomp_of_getLast?_ne]
    intro hlast
    obtain ⟨front, hfront⟩ := List.getLast?_eq_some_iff.mp hlast
    obtain ⟨s, t, rfl, _, ht⟩ := Text.exists_append_cons (by decide) hfront
    obtain rfl := Text.utf8_eq_nil_iff.mp ht
    exact hline List.getLast?_concat

lemma encoded_chomp_iff (line : List UInt8) : Encoded (chomp 13 line) ↔ Encoded line := by
  by_cases hline : line.getLast? = some 13
  · obtain ⟨front, rfl⟩ := List.getLast?_eq_some_iff.mp hline
    have hnil : Encoded [] := ⟨[], rfl⟩
    rw [chomp_concat, encoded_append_cons_iff (by decide), and_iff_left hnil]
  · rw [chomp_of_getLast?_ne hline]

/-- The lines of a text, in bytes, are the lines of its bytes. -/
theorem ofBytes_utf8 (text : Text) : ofBytes text.utf8 = (ofText text).map Text.utf8 := by
  induction text using first_line_induction '\n' with
  | last line hline =>
    by_cases hempty : line = []
    · rw [hempty]
      rfl
    · have hbytes : Text.utf8 line ≠ [] := fun h => hempty (Text.utf8_eq_nil_iff.mp h)
      rw [ofText, split_dropReturns_of_not_mem hline hempty, ofBytes,
        split_dropReturns_of_not_mem (Text.lineFeed_not_mem_utf8 hline) hbytes]
      rfl
  | cons line rest hline ih =>
    have hfeed : String.utf8EncodeChar '\n' = [10] := by decide
    rw [ofText, split_dropReturns_append (by decide) hline, List.map_cons, utf8_chomp, Text.utf8_append_cons, hfeed,
      List.singleton_append, ofBytes, split_dropReturns_append (by decide) (Text.lineFeed_not_mem_utf8 hline)]
    exact congrArg _ ih

/-- Bytes encode a text exactly if each of their lines does. -/
theorem forall_encoded_iff (bytes : List UInt8) : (∀ line ∈ ofBytes bytes, Encoded line) ↔ Encoded bytes := by
  induction bytes using first_line_induction (10 : UInt8) with
  | last line hline =>
    by_cases hempty : line = []
    · rw [hempty]
      exact ⟨fun _ => ⟨[], rfl⟩, fun _ _ h => absurd h List.not_mem_nil⟩
    · rw [ofBytes, split_dropReturns_of_not_mem hline hempty, List.forall_mem_singleton]
  | cons line rest hline ih =>
    rw [ofBytes, split_dropReturns_append (by decide) hline, List.forall_mem_cons, encoded_chomp_iff,
      encoded_append_cons_iff (by decide)]
    exact and_congr_right' ih

end Lines

/-! ### Reading -/

namespace Reading

theorem ofBytes_utf8 (text : Text) : ofBytes text.utf8 = .ok text := by
  have hbytes : text.utf8.toByteArray = List.utf8Encode text := rfl
  have hvalid : text.utf8.toByteArray.IsValidUTF8 := ⟨text, hbytes⟩
  rw [ofBytes, String.fromUTF8?, dif_pos hvalid]
  have hstring : String.fromUTF8 text.utf8.toByteArray hvalid = String.ofList text := rfl
  rw [hstring]
  exact congrArg Except.ok String.toList_ofList

theorem ofBytes_of_not_encoded {bytes : List UInt8} (h : ¬Encoded bytes) : ofBytes bytes = .error .invalidUtf8 := by
  have hinvalid : ¬bytes.toByteArray.IsValidUTF8 := by
    rintro ⟨text, htext⟩
    have hlist := congrArg (·.data.toList) htext
    rw [List.utf8Encode, List.toList_data_toByteArray, List.toList_data_toByteArray] at hlist
    exact h ⟨text, hlist.symm⟩
  rw [ofBytes, String.fromUTF8?, dif_neg hinvalid]

theorem ofBytes_eq_ok_iff {bytes : List UInt8} {text : Text} : ofBytes bytes = .ok text ↔ text.utf8 = bytes := by
  constructor
  · intro h
    by_cases hbytes : Encoded bytes
    · obtain ⟨other, rfl⟩ := hbytes
      rw [ofBytes_utf8] at h
      rw [Except.ok.inj h]
    · rw [ofBytes_of_not_encoded hbytes] at h
      cases h
  · rintro rfl
    exact ofBytes_utf8 text

theorem ofBytes_eq_error_iff {bytes : List UInt8} {e : ReadError} :
    ofBytes bytes = .error e ↔ ¬Encoded bytes ∧ e = .invalidUtf8 := by
  by_cases hbytes : Encoded bytes
  · obtain ⟨text, rfl⟩ := hbytes
    rw [ofBytes_utf8]
    simp [Encoded]
  · rw [ofBytes_of_not_encoded hbytes]
    simp [hbytes, eq_comm]

lemma isOk_ofBytes_iff {bytes : List UInt8} : (ofBytes bytes).isOk ↔ Encoded bytes := by
  by_cases hbytes : Encoded bytes
  · obtain ⟨text, rfl⟩ := hbytes
    rw [ofBytes_utf8]
    exact iff_of_true rfl ⟨text, rfl⟩
  · rw [ofBytes_of_not_encoded hbytes]
    exact iff_of_false Bool.false_ne_true hbytes

/-! ### Reading lines -/

/-- Whether a text is read as text or as bytes, its lines are the same, and all of them can be read. -/
theorem linesOfBytes_utf8 (text : Text) : linesOfBytes text.utf8 = linesOfText text := by
  rw [linesOfBytes, Lines.ofBytes_utf8, List.map_map, linesOfText]
  exact List.map_congr_left fun line _ => ofBytes_utf8 line

/-- All lines can be read exactly if the bytes encode a text. -/
theorem all_isOk_linesOfBytes_iff {bytes : List UInt8} : (linesOfBytes bytes).all (·.isOk) ↔ Encoded bytes := by
  rw [← Lines.forall_encoded_iff bytes, linesOfBytes, List.all_map, List.all_eq_true]
  exact forall₂_congr fun line _ => isOk_ofBytes_iff

lemma error_mem_linesOfBytes_iff {bytes : List UInt8} {e : ReadError} :
    .error e ∈ linesOfBytes bytes ↔ ¬Encoded bytes ∧ e = .invalidUtf8 := by
  rw [← Lines.forall_encoded_iff bytes, linesOfBytes, List.mem_map]
  simp only [ofBytes_eq_error_iff, ← and_assoc, exists_and_right, not_forall, exists_prop]

lemma eq_invalidUtf8_of_mem (bytes : List UInt8) (e : ReadError) (h : .error e ∈ linesOfBytes bytes) :
    e = .invalidUtf8 :=
  (error_mem_linesOfBytes_iff.mp h).2

lemma lineFeed_not_mem_of_mem (bytes : List UInt8) (text : Text) (h : .ok text ∈ linesOfBytes bytes) : '\n' ∉ text := by
  obtain ⟨line, hline, hread⟩ := List.mem_map.mp h
  obtain rfl := ofBytes_eq_ok_iff.mp hread
  intro hfeed
  apply Lines.not_mem_of_mem_split hline
  exact List.mem_flatMap.mpr ⟨'\n', hfeed, by decide⟩

end Reading

end ScriptLexer
