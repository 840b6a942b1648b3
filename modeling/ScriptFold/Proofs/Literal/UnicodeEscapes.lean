import Mathlib
import ScriptFold.Proofs.Literal.Lexemes
import ScriptFold.Text.Units

/-!
Escapes by code.

A string can spell each of its characters by the code, between braces, and each of its code units
by four hexadecimal digits. A unit is read by itself, also when it is half of a pair; so such a
string has two replacement characters for each character above U+FFFF.
-/

namespace ScriptFold

/-! ## Hexadecimal digits -/

/-- Hexadecimal digits of either case that write a number, perhaps with zeros before them. -/
structure WritesHex (n : Nat) (ds : List Char) : Prop where
  hex : ∀ d ∈ ds, isHexDigit d
  value : ofHexDigits ds = n

theorem WritesHex.of_all {n : Nat} {ds : List Char} (hhex : ds.all isHexDigit)
    (hvalue : ofHexDigits ds = n) : WritesHex n ds :=
  ⟨List.all_eq_true.1 hhex, hvalue⟩

theorem ofHexDigits_concat (ds : List Char) (d : Char) :
    ofHexDigits (ds ++ [d]) = 16 * ofHexDigits ds + (Number.digit? 16 d).getD 0 := by
  rw [ofHexDigits, List.foldl_append]
  rfl

/-- The last hexadecimal digits of a number. -/
def hexDigits : Nat → Nat → List Char
  | 0, _ => []
  | k + 1, n => hexDigits k (n / 16) ++ [Nat.digitChar (n % 16)]

theorem length_hexDigits (k n : Nat) : (hexDigits k n).length = k := by
  induction k generalizing n with
  | zero => rfl
  | succ k ih => rw [hexDigits, List.length_append, ih, List.length_singleton]

theorem writesHex_hexDigits {k n : Nat} (h : n < 16 ^ k) : WritesHex n (hexDigits k n) := by
  induction k generalizing n with
  | zero =>
    obtain rfl : n = 0 := by simpa using h
    exact ⟨by simp [hexDigits], rfl⟩
  | succ k ih =>
    have hdigit := digit_digitChar (n % 16) (Nat.mod_lt n (by decide))
    obtain ⟨hhex, hvalue⟩ := ih (Nat.div_lt_of_lt_mul (by rwa [Nat.pow_succ, Nat.mul_comm] at h))
    constructor
    · rw [hexDigits, List.forall_mem_append]
      exact ⟨hhex, List.forall_mem_singleton.2 (by simp [isHexDigit, hdigit])⟩
    · rw [hexDigits, ofHexDigits_concat, hvalue, hdigit, Option.getD_some, Nat.div_add_mod]

theorem ne_of_isHexDigit {d x : Char} (hd : isHexDigit d) (hx : isHexDigit x = false) : d ≠ x := by
  rintro rfl
  rw [hx] at hd
  cases hd

/-! ## Escapes -/

/-- The text spells a character by its code between braces. -/
def SpellsCode (c : Char) (cs : List Char) : Prop :=
  ∃ ds, ds ≠ [] ∧ WritesHex c.toNat ds ∧ cs = '\\' :: 'u' :: '\x7b' :: (ds ++ ['\x7d'])

/-- The text spells a code unit by four digits. -/
def SpellsUnit (u : UInt16) (cs : List Char) : Prop :=
  ∃ ds, ds.length = 4 ∧ WritesHex u.toNat ds ∧ cs = '\\' :: 'u' :: ds

theorem readEscape_code {c : Char} {ds : List Char} (hne : ds ≠ []) (h : WritesHex c.toNat ds)
    (t : List Char) :
    readEscape ('u' :: '\x7b' :: (ds ++ ['\x7d']) ++ t) = (.char c, ds.length + 3) := by
  have hread : readEscape ('u' :: '\x7b' :: (ds ++ ['\x7d']) ++ t) =
      bracedEscape (ds ++ '\x7d' :: t) := by
    rw [← List.singleton_append (l := t), ← List.append_assoc]
    rfl
  have hrun : (ds ++ '\x7d' :: t).takeWhile isHexDigit = ds :=
    takeWhile_append_of_head h.hex rfl
  rw [hread]
  unfold bracedEscape
  simp only [hrun, h.value, List.drop_left, List.head?_cons, hne, ne_eq, not_true_eq_false,
    or_self, if_false, Char.toNat_le_max, if_true, charOfCode_toNat]

theorem readEscape_unit {n : Nat} {ds : List Char} (hlength : ds.length = 4) (h : WritesHex n ds)
    (t : List Char) : readEscape ('u' :: ds ++ t) = (.char (charOfCode n), 5) := by
  -- The first digit is no brace.
  have hread : readEscape ('u' :: (ds ++ t)) = fixedEscape 4 (ds ++ t) := by
    obtain ⟨d, ds, rfl⟩ := List.exists_cons_of_length_pos (by omega : 0 < ds.length)
    have hbrace : d ≠ '\x7b' := ne_of_isHexDigit (h.hex d List.mem_cons_self) (by decide)
    rw [List.cons_append, readEscape]
    · rfl
    · rintro _ ⟨⟩
    · rintro _ _ ⟨rfl, -⟩
      exact hbrace rfl
  have htake : (ds ++ t).take 4 = ds := by rw [← hlength, List.take_left]
  have hrun : ds.takeWhile isHexDigit = ds := List.takeWhile_eq_self_iff.2 h.hex
  rw [List.cons_append, hread, fixedEscape]
  simp only [htake, hrun, hlength, if_true, h.value]

/-- A hexadecimal digit ends neither a string nor its line, and it starts no escape. -/
theorem plain_of_isHexDigit {quote d : Char} (hquote : quote = '"' ∨ quote = '\'')
    (hd : isHexDigit d) : d ≠ quote ∧ d ≠ '\n' ∧ d ≠ '\\' := by
  refine ⟨ne_of_isHexDigit hd ?_, ne_of_isHexDigit hd (by decide), ne_of_isHexDigit hd (by decide)⟩
  rcases hquote with rfl | rfl <;> decide

theorem SpellsCode.denotes {quote c : Char} {cs : List Char} (hquote : quote = '"' ∨ quote = '\'')
    (h : SpellsCode c cs) : Denotes quote c cs := by
  obtain ⟨ds, hne, hds, rfl⟩ := h
  have hopen : '\x7b' ≠ quote ∧ '\x7b' ≠ '\n' ∧ '\x7b' ≠ '\\' := by
    rcases hquote with rfl | rfl <;> decide
  have hclose : '\x7d' ≠ quote ∧ '\x7d' ≠ '\n' ∧ '\x7d' ≠ '\\' := by
    rcases hquote with rfl | rfl <;> decide
  refine denotes_escape (fun t => ?_) (by decide) ?_
  · rw [readEscape_code hne hds]
    simp
  · rw [List.forall_mem_cons, List.forall_mem_append, List.forall_mem_singleton]
    exact ⟨hopen, fun d hd => plain_of_isHexDigit hquote (hds.hex d hd), hclose⟩

theorem SpellsUnit.denotes {quote : Char} {u : UInt16} {cs : List Char}
    (hquote : quote = '"' ∨ quote = '\'') (h : SpellsUnit u cs) :
    Denotes quote (charOfCode u.toNat) cs := by
  obtain ⟨ds, hlength, hds, rfl⟩ := h
  have hplain : ∀ d ∈ ds, d ≠ quote ∧ d ≠ '\n' ∧ d ≠ '\\' :=
    fun d hd => plain_of_isHexDigit hquote (hds.hex d hd)
  refine denotes_escape (fun t => ?_) (by decide) hplain
  rw [readEscape_unit hlength hds, List.length_cons, hlength]

theorem spellsCode_hexDigits (c : Char) :
    SpellsCode c ('\\' :: 'u' :: '\x7b' :: (hexDigits 6 c.toNat ++ ['\x7d'])) := by
  have hbound : c.toNat < 16 ^ 6 := Nat.lt_of_le_of_lt c.toNat_le_max (by decide)
  have hne := List.ne_nil_of_length_eq_add_one (length_hexDigits 6 c.toNat)
  exact ⟨_, hne, writesHex_hexDigits hbound, rfl⟩

theorem spellsUnit_hexDigits (u : UInt16) : SpellsUnit u ('\\' :: 'u' :: hexDigits 4 u.toNat) :=
  ⟨_, length_hexDigits 4 _, writesHex_hexDigits u.toNat_lt, rfl⟩

/-! ## Strings -/

/-- What the units of a text denote one by one: half of a pair denotes the replacement character. -/
def byUnits (s : String) : String :=
  String.ofList (s.toList.flatMap fun c => if c.toNat < 0x10000 then [c] else ['\ufffd', '\ufffd'])

theorem charOfCode_surrogate {n : Nat} (hlow : 0xD800 ≤ n) (hhigh : n < 0xE000) :
    charOfCode n = '\ufffd' := by
  unfold charOfCode
  rw [if_neg]
  rw [Nat.isValidChar]
  omega

theorem map_charOfCode_unitsOfChar (c : Char) :
    (Text.unitsOfChar c).map (fun u => charOfCode u.toNat) =
      if c.toNat < 0x10000 then [c] else ['\ufffd', '\ufffd'] := by
  unfold Text.unitsOfChar
  split
  · have hunit : c.toNat.toUInt16.toNat = c.toNat := UInt16.toNat_ofNat_of_lt' ‹_›
    rw [List.map_singleton, hunit, charOfCode_toNat]
  · have hlast : c.toNat ≤ 0x10FFFF := c.toNat_le_max
    have hsize : UInt16.size = 0x10000 := rfl
    have hhigh : (0xD800 + (c.toNat - 0x10000) / 0x400).toUInt16.toNat =
        0xD800 + (c.toNat - 0x10000) / 0x400 := UInt16.toNat_ofNat_of_lt' (by omega)
    have hlow : (0xDC00 + (c.toNat - 0x10000) % 0x400).toUInt16.toNat =
        0xDC00 + (c.toNat - 0x10000) % 0x400 := UInt16.toNat_ofNat_of_lt' (by omega)
    rw [List.map_cons, List.map_singleton, hhigh, hlow, charOfCode_surrogate (by omega) (by omega),
      charOfCode_surrogate (by omega) (by omega)]

theorem map_charOfCode_units (s : String) :
    (Text.units s).map (fun u => charOfCode u.toNat) = (byUnits s).toList := by
  rw [byUnits, String.toList_ofList, Text.units, List.map_flatMap]
  exact List.flatMap_congr fun c _ => map_charOfCode_unitsOfChar c

/-- All characters are single units if and only if the units denote the text one by one. -/
theorem byUnits_eq_iff (s : String) : byUnits s = s ↔ ∀ c ∈ s.toList, c.toNat < 0x10000 := by
  constructor
  · intro h c hc
    rw [← h, byUnits, String.toList_ofList, List.mem_flatMap] at hc
    obtain ⟨d, -, hc⟩ := hc
    split at hc
    · obtain rfl := List.mem_singleton.1 hc
      assumption
    · obtain rfl : c = '\ufffd' := by simpa using hc
      decide
  · intro h
    have hsingle : ∀ c ∈ s.toList,
        (if c.toNat < 0x10000 then [c] else ['\ufffd', '\ufffd']) = [c] :=
      fun c hc => if_pos (h c hc)
    rw [byUnits, List.flatMap_congr hsingle, List.flatMap_singleton', String.ofList_toList]

def quoted (quote : Char) (parts : List (List Char)) : String :=
  String.ofList (quote :: (parts.flatten ++ [quote]))

theorem hasKinds_quoted {quote : Char} {cs : List Char} {parts : List (List Char)}
    (hquote : quote = '"' ∨ quote = '\'') (h : List.Forall₂ (Denotes quote) cs parts) :
    HasKinds (quoted quote parts) [.string (String.ofList cs)] := by
  have hscan : ∀ t, scan quote t = scanString quote t := by
    rcases hquote with rfl | rfl <;> exact fun t => rfl
  have hback : quote ≠ '\\' := by
    rcases hquote with rfl | rfl <;> decide
  refine hasKinds_of_lexes ?_
  rw [quoted, String.toList_ofList]
  refine lexes_token quote (parts.flatten ++ [quote]) ?_
  rw [hscan, List.append_nil, scanString_of_denotes hback h, List.length_append]
  rfl

/-- **Escapes by code.** A string can spell each of its characters by the code between braces, with
digits of either case and zeros before them. Between quotes of either kind such a spelling is
without faults and is one token, the string. A string can also spell each of its code units by four
digits. This is one token without faults too, but halves of pairs are not put together: each is the
replacement character. So the token is the string exactly if no character is above U+FFFF. -/
theorem tokenize_unicodeEscapes {quote : Char} (hquote : quote = '"' ∨ quote = '\'') (s : String) :
    ((∃ parts, List.Forall₂ SpellsCode s.toList parts) ∧
      ∀ parts, List.Forall₂ SpellsCode s.toList parts →
        HasKinds (quoted quote parts) [.string s]) ∧
    ((∃ parts, List.Forall₂ SpellsUnit (Text.units s) parts) ∧
      ∀ parts, List.Forall₂ SpellsUnit (Text.units s) parts →
        HasKinds (quoted quote parts) [.string (byUnits s)]) ∧
    (byUnits s = s ↔ ∀ c ∈ s.toList, c.toNat < 0x10000) := by
  have hcodes : ∃ parts, List.Forall₂ SpellsCode s.toList parts :=
    ⟨_, List.forall₂_map_right_iff.2 (List.forall₂_same.2 fun c _ => spellsCode_hexDigits c)⟩
  have hunits : ∃ parts, List.Forall₂ SpellsUnit (Text.units s) parts :=
    ⟨_, List.forall₂_map_right_iff.2 (List.forall₂_same.2 fun u _ => spellsUnit_hexDigits u)⟩
  refine ⟨⟨hcodes, fun parts h => ?_⟩, ⟨hunits, fun parts h => ?_⟩, byUnits_eq_iff s⟩
  · have hdenotes := hasKinds_quoted hquote (h.imp fun _ _ hc => hc.denotes hquote)
    rwa [String.ofList_toList] at hdenotes
  · have hdenotes : List.Forall₂ (Denotes quote) (byUnits s).toList parts := by
      rw [← map_charOfCode_units, List.forall₂_map_left_iff]
      exact h.imp fun _ _ hu => hu.denotes hquote
    have hkinds := hasKinds_quoted hquote hdenotes
    rwa [String.ofList_toList] at hkinds

/-- The code of a character above U+FFFF denotes the character; its two units do not. -/
theorem tokenize_unicodeEscapes_emoji :
    HasKinds "'\\u\x7b41\x7d\\u\x7b1F600\x7d'" [.string "A😀"] ∧
      HasKinds "'\\u0041\\ud83D\\ude00'" [.string "A\ufffd\ufffd"] := by
  have hquote : '\'' = '"' ∨ '\'' = '\'' := .inr rfl
  obtain ⟨⟨-, hcodes⟩, ⟨-, hunits⟩, -⟩ := tokenize_unicodeEscapes hquote "A😀"
  have hcode := hcodes ["\\u\x7b41\x7d".toList, "\\u\x7b1F600\x7d".toList]
    (.cons ⟨"41".toList, by decide, .of_all (by decide) (by decide), rfl⟩
      (.cons ⟨"1F600".toList, by decide, .of_all (by decide) (by decide), rfl⟩ .nil))
  have hunit := hunits ["\\u0041".toList, "\\ud83D".toList, "\\ude00".toList]
    (.cons ⟨"0041".toList, rfl, .of_all (by decide) (by decide), rfl⟩
      (.cons ⟨"d83D".toList, rfl, .of_all (by decide) (by decide), rfl⟩
        (.cons ⟨"de00".toList, rfl, .of_all (by decide) (by decide), rfl⟩ .nil)))
  have hdenoted : byUnits "A😀" = "A\ufffd\ufffd" := by decide +kernel
  rw [hdenoted] at hunit
  exact ⟨hcode, hunit⟩

/-- The two units of a character above U+FFFF are read as two replacement characters. -/
theorem tokenize_surrogates :
    let parts := ["\\uD83D".toList, "\\uDE00".toList]
    List.Forall₂ SpellsUnit (Text.units "😀") parts ∧
      quoted '"' parts = "\"\\uD83D\\uDE00\"" ∧
      (tokenize "\"\\uD83D\\uDE00\"").tokens.map Token.kind = [.string "\ufffd\ufffd", .eof] ∧
      ¬ HasKinds (quoted '"' parts) [.string "😀"] := by
  have htokens : (tokenize "\"\\uD83D\\uDE00\"").tokens.map Token.kind =
      [.string "\ufffd\ufffd", .eof] := by
    decide +kernel
  have htext : quoted '"' ["\\uD83D".toList, "\\uDE00".toList] = "\"\\uD83D\\uDE00\"" := by
    decide +kernel
  refine ⟨?_, htext, htokens, ?_⟩
  · exact .cons ⟨"D83D".toList, rfl, .of_all (by decide) (by decide), rfl⟩
      (.cons ⟨"DE00".toList, rfl, .of_all (by decide) (by decide), rfl⟩ .nil)
  · rintro ⟨-, hkinds⟩
    rw [htext, htokens] at hkinds
    exact absurd hkinds (by decide +kernel)

end ScriptFold
