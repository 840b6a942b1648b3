import Mathlib.Data.List.DropRight
import ScriptFold.Proofs.Version.Parts

/-!
Texts of versions and of patterns.

A text that writes a pattern has numbers and open parts between points and may have a tag after a
hyphen. Blanks, an equals sign and the letter `v` may stand before it, build metadata or blanks
after it, and zeros before its numbers. Exactly these texts are read as patterns
(`Pattern.ofText?_eq_some_iff`). Each version that some text writes has one text without any of
this (`WellFormed.writtenAs_text`).
-/

namespace ScriptFold

open Text (IsWord)

namespace Text

/-! ## Blanks -/

def AllBlank (cs : List Char) : Prop := ∀ c ∈ cs, isBlank c

variable {c : Char} {cs ds : List Char}

theorem trim_eq (cs : List Char) : trim cs = (cs.dropWhile isBlank).rdropWhile isBlank := rfl

theorem dropWhile_of_allBlank (hcs : AllBlank cs) (ds : List Char) :
    (cs ++ ds).dropWhile isBlank = ds.dropWhile isBlank := by
  rw [List.dropWhile_append, List.dropWhile_eq_nil_iff.2 hcs]
  rfl

theorem exists_dropWhile (cs : List Char) :
    ∃ front, AllBlank front ∧ cs = front ++ cs.dropWhile isBlank :=
  ⟨cs.takeWhile isBlank, List.all_eq_true.1 List.all_takeWhile,
    List.takeWhile_append_dropWhile.symm⟩

theorem exists_rdropWhile (cs : List Char) :
    ∃ back, AllBlank back ∧ cs = cs.rdropWhile isBlank ++ back := by
  obtain ⟨front, hfront, hcs⟩ := exists_dropWhile cs.reverse
  refine ⟨front.reverse, fun c hc => hfront c (List.mem_reverse.1 hc), ?_⟩
  rw [List.rdropWhile, ← List.reverse_append, ← hcs, List.reverse_reverse]

theorem rdropWhile_cons (c : Char) (cs : List Char) : (c :: cs).rdropWhile isBlank =
    if cs.rdropWhile isBlank = [] ∧ isBlank c then [] else c :: cs.rdropWhile isBlank := by
  unfold List.rdropWhile
  rw [List.reverse_cons, List.dropWhile_append]
  simp only [List.isEmpty_iff, List.reverse_eq_nil_iff]
  by_cases hcs : cs.reverse.dropWhile isBlank = []
  · by_cases hc : isBlank c = true <;> simp [hcs, hc]
  · simp [hcs]

theorem rdropWhile_cons_of_not (hc : isBlank c = false) (cs : List Char) :
    (c :: cs).rdropWhile isBlank = c :: cs.rdropWhile isBlank := by
  simp [rdropWhile_cons, hc]

theorem rdropWhile_append_of_not (hcs : ∀ c ∈ cs, isBlank c = false) (ds : List Char) :
    (cs ++ ds).rdropWhile isBlank = cs ++ ds.rdropWhile isBlank := by
  induction cs with
  | nil => rfl
  | cons c cs ih =>
    obtain ⟨hc, hcs⟩ := List.forall_mem_cons.1 hcs
    rw [List.cons_append, rdropWhile_cons_of_not hc, ih hcs, List.cons_append]

theorem rdropWhile_of_allBlank (hcs : AllBlank cs) : cs.rdropWhile isBlank = [] :=
  List.rdropWhile_eq_nil_iff.2 hcs

/-- Blanks at one end of a text are dropped whether or not those at the other end are there. -/
theorem dropWhile_rdropWhile (cs : List Char) :
    (cs.rdropWhile isBlank).dropWhile isBlank = (cs.dropWhile isBlank).rdropWhile isBlank := by
  induction cs with
  | nil => rfl
  | cons c cs ih =>
    by_cases hc : isBlank c = true
    · rw [List.dropWhile_cons_of_pos hc, ← ih, rdropWhile_cons]
      split
      · rename_i hnil
        rw [hnil.1]
      · exact List.dropWhile_cons_of_pos hc
    · rw [List.dropWhile_cons_of_neg hc, rdropWhile_cons_of_not (by simpa using hc)]
      exact List.dropWhile_cons_of_neg hc

end Text

namespace Version

variable {ns : List Nat} {ts : List Tag} {cs : List Char}

/-! ## Reading -/

namespace Pattern

variable {p : Pattern}

/-- A pattern is read from the text after the signs and before build metadata. -/
theorem ofText?_eq_some_iff_written : ofText? cs = some p ↔
    ∃ core tag ns ts, (withoutSigns cs).takeWhile (· ≠ '+') = core ++ tag ∧
      NumbersWrittenAs ns core ∧ TagWrittenAs ts tag ∧ ofNumbers? ts ns = some p := by
  unfold ofText?
  generalize (withoutSigns cs).takeWhile (· ≠ '+') = body
  constructor
  · intro h
    cases hcut : Text.cutAt '-' body with
    | none =>
      simp only [hcut] at h
      split at h
      · cases h
      rename_i hlength
      obtain ⟨ns, hns, h⟩ := Option.bind_eq_some_iff.1 h
      exact ⟨body, [], ns, [], (List.append_nil body).symm,
        numbersWrittenAs_iff.2 ⟨Nat.le_of_not_lt hlength, hns⟩, .inl ⟨rfl, rfl⟩, h⟩
    | some cut =>
      obtain ⟨core, tag⟩ := cut
      simp only [hcut] at h
      split at h
      · cases h
      rename_i hlength
      obtain ⟨ns, hns, h⟩ := Option.bind_eq_some_iff.1 h
      obtain ⟨ts, hts, h⟩ := Option.bind_eq_some_iff.1 h
      exact ⟨core, '-' :: tag, ns, ts, (Text.eq_of_cutAt hcut).1,
        numbersWrittenAs_iff.2 ⟨Nat.le_of_not_lt hlength, hns⟩,
        .inr ⟨tag, tagsOfText?_eq_some_iff.1 hts, rfl⟩, h⟩
  · rintro ⟨core, tag, ns, ts, rfl, hcore, htag, h⟩
    obtain ⟨hlength, hns⟩ := numbersWrittenAs_iff.1 hcore
    rcases htag with ⟨rfl, rfl⟩ | ⟨ds, hds, rfl⟩
    · have hcut : Text.cutAt '-' core = none := by
        refine Option.eq_none_iff_forall_ne_some.2 fun ⟨before, after⟩ heq => ?_
        have hmem : '-' ∈ core := by simp [(Text.eq_of_cutAt heq).1]
        exact hcore.hyphen_notMem hmem
      rw [List.append_nil]
      simp only [hcut, hns, if_neg (Nat.not_lt.2 hlength)]
      exact h
    · simp only [Text.cutAt_append hcore.hyphen_notMem ds, hns, if_neg (Nat.not_lt.2 hlength),
        Option.map_some, Option.getD_some, tagsOfText?_eq_some_iff.2 hds]
      exact h

/-! ## Signs -/

/-- The text writes the pattern: its numbers and its tag, perhaps with signs before them and build
metadata after them. -/
inductive WrittenAs (p : Pattern) : List Char → Prop
  | mk {front sign gap letter core tag back : List Char} {ns : List Nat} {ts : List Tag}
    (hfront : Text.AllBlank front) (hsign : sign = [] ∨ sign = ['='])
    (hgap : Text.AllBlank gap) (hletter : letter = [] ∨ letter = ['v'] ∨ letter = ['V'])
    (hcore : NumbersWrittenAs ns core) (htag : TagWrittenAs ts tag)
    (hback : Text.AllBlank back ∨ back.head? = some '+') (hp : ofNumbers? ts ns = some p) :
    WrittenAs p (front ++ (sign ++ (gap ++ (letter ++ (core ++ (tag ++ back))))))

theorem exists_strip (c : Char) (cs : List Char) :
    ∃ sign, (sign = [] ∨ sign = [c]) ∧ cs = sign ++ if cs.head? = some c then cs.drop 1 else cs := by
  split
  · rename_i h
    obtain ⟨ds, rfl⟩ := List.head?_eq_some_iff.1 h
    exact ⟨[c], .inr rfl, rfl⟩
  · exact ⟨[], .inl rfl, rfl⟩

/-- What stands before the numbers of a text, and the blanks after it. -/
theorem withoutSigns_spec (cs : List Char) :
    ∃ front sign gap letter back, Text.AllBlank front ∧ (sign = [] ∨ sign = ['=']) ∧
      Text.AllBlank gap ∧ (letter = [] ∨ letter = ['v'] ∨ letter = ['V']) ∧ Text.AllBlank back ∧
      cs = front ++ (sign ++ (gap ++ (letter ++ (withoutSigns cs ++ back)))) := by
  obtain ⟨front, hfront, htrimmed⟩ := Text.exists_dropWhile cs
  obtain ⟨back, hback, htrim⟩ := Text.exists_rdropWhile (cs.dropWhile Text.isBlank)
  rw [← Text.trim_eq] at htrim
  obtain ⟨sign, hsign, hstrip⟩ := exists_strip '=' (Text.trim cs)
  unfold withoutSigns
  simp only
  generalize (if (Text.trim cs).head? = some '=' then (Text.trim cs).drop 1 else Text.trim cs) = ds
    at hstrip
  obtain ⟨gap, hgap, hds⟩ := Text.exists_dropWhile ds
  generalize ds.dropWhile Text.isBlank = es at hds
  have hletter : ∃ letter, (letter = [] ∨ letter = ['v'] ∨ letter = ['V']) ∧
      es = letter ++ if es.head? = some 'v' ∨ es.head? = some 'V' then es.drop 1 else es := by
    split
    · rename_i h
      rcases h with h | h <;> obtain ⟨fs, rfl⟩ := List.head?_eq_some_iff.1 h
      · exact ⟨['v'], .inr (.inl rfl), rfl⟩
      · exact ⟨['V'], .inr (.inr rfl), rfl⟩
    · exact ⟨[], .inl rfl, rfl⟩
  obtain ⟨letter, hletter, hes⟩ := hletter
  refine ⟨front, sign, gap, letter, back, hfront, hsign, hgap, hletter, hback, ?_⟩
  calc cs = front ++ (Text.trim cs ++ back) := by rw [← htrim, ← htrimmed]
    _ = front ++ (sign ++ (gap ++ (es ++ back))) := by
      rw [hstrip, hds, List.append_assoc, List.append_assoc]
    _ = _ := by rw [← List.append_assoc letter, ← hes]

section Written

variable {front sign gap letter core tag back : List Char}

/-- Blanks at the ends of a text are not part of its numbers and its tag. -/
theorem rdropWhile_body (hcore : NumbersWrittenAs ns core) (htag : TagWrittenAs ts tag)
    (hback : Text.AllBlank back ∨ back.head? = some '+') :
    ∃ rest, (rest = [] ∨ rest.head? = some '+') ∧
      (core ++ tag ++ back).rdropWhile Text.isBlank = core ++ tag ++ rest ∧
      ((core ++ tag ++ back).dropWhile Text.isBlank).rdropWhile Text.isBlank =
        (core ++ tag ++ back).rdropWhile Text.isBlank := by
  have hchars : ∀ c ∈ core ++ tag, Text.isBlank c = false := by
    intro c hc
    rcases List.mem_append.1 hc with hc | hc
    · exact (hcore.isVersionChar c hc).not_isBlank
    · exact (htag.isVersionChar c hc).not_isBlank
  refine ⟨back.rdropWhile Text.isBlank, ?_, Text.rdropWhile_append_of_not hchars back, ?_⟩
  · rcases hback with hback | hback
    · exact .inl (Text.rdropWhile_of_allBlank hback)
    · obtain ⟨build, rfl⟩ := List.head?_eq_some_iff.1 hback
      exact .inr (by rw [Text.rdropWhile_cons_of_not (by decide)]; rfl)
  · generalize core ++ tag = written at hchars
    cases written with
    | cons c written =>
      rw [List.cons_append, List.dropWhile_cons_of_neg]
      simp [hchars c List.mem_cons_self]
    | nil =>
      rw [List.nil_append]
      rcases hback with hback | hback
      · rw [List.dropWhile_eq_nil_iff.2 hback, Text.rdropWhile_of_allBlank hback]
        rfl
      · obtain ⟨build, rfl⟩ := List.head?_eq_some_iff.1 hback
        rw [List.dropWhile_cons_of_neg (by decide)]

theorem head_body (hcore : NumbersWrittenAs ns core) (htag : TagWrittenAs ts tag)
    {rest : List Char} (hrest : rest = [] ∨ rest.head? = some '+') :
    ∀ c ∈ (core ++ tag ++ rest).head?, c ∉ ['=', 'v', 'V'] := by
  intro c hc
  cases core with
  | cons d core =>
    cases hc
    rcases hcore.chars c List.mem_cons_self with hdigit | hmem
    · intro hsign
      revert hdigit
      exact forall_of_all (p := fun c => ¬ c.isDigit) (by decide) c hsign
    · exact forall_of_all (p := (· ∉ ['=', 'v', 'V'])) (by decide) c hmem
  | nil =>
    rcases htag with ⟨-, rfl⟩ | ⟨ds, -, rfl⟩
    · rcases hrest with rfl | hrest
      · cases hc
      · obtain ⟨build, rfl⟩ := List.head?_eq_some_iff.1 hrest
        cases hc
        decide
    · cases hc
      decide

/-- The signs before a text are taken off, and the blanks at its end. -/
theorem withoutSigns_written (hfront : Text.AllBlank front) (hsign : sign = [] ∨ sign = ['='])
    (hgap : Text.AllBlank gap) (hletter : letter = [] ∨ letter = ['v'] ∨ letter = ['V'])
    {body : List Char} (hblank : (body.dropWhile Text.isBlank).rdropWhile Text.isBlank =
      body.rdropWhile Text.isBlank)
    (hhead : ∀ c ∈ (body.rdropWhile Text.isBlank).head?, c ∉ ['=', 'v', 'V']) :
    withoutSigns (front ++ (sign ++ (gap ++ (letter ++ body)))) =
      body.rdropWhile Text.isBlank := by
  have hne (x : Char) (hx : x ∈ ['=', 'v', 'V']) :
      (body.rdropWhile Text.isBlank).head? ≠ some x := fun h => hhead x h hx
  -- The letter and what follows it, between blanks.
  obtain ⟨named, hnamed⟩ : ∃ named, named = letter ++ body.rdropWhile Text.isBlank := ⟨_, rfl⟩
  have hdrop : ((letter ++ body).dropWhile Text.isBlank).rdropWhile Text.isBlank = named := by
    rcases hletter with rfl | rfl | rfl
    · rw [hnamed]
      exact hblank
    · rw [hnamed, List.singleton_append, List.dropWhile_cons_of_neg (by decide),
        Text.rdropWhile_cons_of_not (by decide)]
      rfl
    · rw [hnamed, List.singleton_append, List.dropWhile_cons_of_neg (by decide),
        Text.rdropWhile_cons_of_not (by decide)]
      rfl
  have hgapped : ((gap ++ (letter ++ body)).rdropWhile Text.isBlank).dropWhile Text.isBlank =
      named := by
    rw [Text.dropWhile_rdropWhile, Text.dropWhile_of_allBlank hgap, hdrop]
  have hstripped : (if (Text.trim (front ++ (sign ++ (gap ++ (letter ++ body))))).head? = some '='
      then (Text.trim (front ++ (sign ++ (gap ++ (letter ++ body))))).drop 1
      else Text.trim (front ++ (sign ++ (gap ++ (letter ++ body))))).dropWhile Text.isBlank =
      named := by
    rw [Text.trim_eq, Text.dropWhile_of_allBlank hfront]
    rcases hsign with rfl | rfl
    · have hequals : named.head? ≠ some '=' := by
        rcases hletter with rfl | rfl | rfl
        · rw [hnamed]
          exact hne '=' (by decide)
        · simp [hnamed]
        · simp [hnamed]
      rw [List.nil_append, ← Text.dropWhile_rdropWhile, hgapped, if_neg hequals, ← hgapped,
        List.dropWhile_idempotent]
    · rw [List.singleton_append, List.dropWhile_cons_of_neg (by decide),
        Text.rdropWhile_cons_of_not (by decide), List.head?_cons, if_pos rfl, List.drop_one,
        List.tail_cons, hgapped]
  unfold withoutSigns
  simp only [hstripped]
  rcases hletter with rfl | rfl | rfl
  · rw [hnamed, List.nil_append, if_neg (not_or.2 ⟨hne 'v' (by decide), hne 'V' (by decide)⟩)]
  · rw [hnamed]
    rfl
  · rw [hnamed]
    rfl

end Written

/-- **Exactly the texts that write a pattern are read as the pattern.** -/
theorem ofText?_eq_some_iff : ofText? cs = some p ↔ p.WrittenAs cs := by
  rw [ofText?_eq_some_iff_written]
  constructor
  · rintro ⟨core, tag, ns, ts, hbody, hcore, htag, hp⟩
    obtain ⟨front, sign, gap, letter, back, hfront, hsign, hgap, hletter, hback, hcs⟩ :=
      withoutSigns_spec cs
    -- Build metadata goes on to the blanks at the end.
    have hsplit : withoutSigns cs = core ++ tag ++ (withoutSigns cs).dropWhile (· ≠ '+') := by
      rw [← hbody, List.takeWhile_append_dropWhile]
    have hend : Text.AllBlank ((withoutSigns cs).dropWhile (· ≠ '+') ++ back) ∨
        ((withoutSigns cs).dropWhile (· ≠ '+') ++ back).head? = some '+' := by
      have hstop := List.head?_dropWhile_not (· ≠ '+') (withoutSigns cs)
      cases hbuild : (withoutSigns cs).dropWhile (· ≠ '+') with
      | nil => exact .inl hback
      | cons c build =>
        rw [hbuild] at hstop
        have hc : c = '+' := by simpa using hstop
        exact .inr (by rw [hc]; rfl)
    rw [hsplit, List.append_assoc, List.append_assoc] at hcs
    rw [hcs]
    exact .mk hfront hsign hgap hletter hcore htag hend hp
  · rintro ⟨hfront, hsign, hgap, hletter, hcore, htag, hback, hp⟩
    rename_i front sign gap letter core tag back ns ts
    refine ⟨core, tag, ns, ts, ?_, hcore, htag, hp⟩
    obtain ⟨rest, hrest, hbody, hblank⟩ := rdropWhile_body hcore htag hback
    have hchars : ∀ c ∈ core ++ tag, IsVersionChar c :=
      List.forall_mem_append.2 ⟨hcore.isVersionChar, htag.isVersionChar⟩
    have hhead : ∀ c ∈ ((core ++ tag ++ back).rdropWhile Text.isBlank).head?,
        c ∉ ['=', 'v', 'V'] := by
      rw [hbody]
      exact head_body hcore htag hrest
    rw [← List.append_assoc core, withoutSigns_written hfront hsign hgap hletter hblank hhead,
      hbody, List.takeWhile_append_of_pos fun c hc => by
        simpa using (hchars c hc).ne (x := '+') (by decide)]
    rcases hrest with rfl | hrest
    · simp
    · obtain ⟨build, rfl⟩ := List.head?_eq_some_iff.1 hrest
      simp

/-- A text without signs and build metadata that writes the pattern. -/
theorem writtenAs_plain {core tag : List Char} (hcore : NumbersWrittenAs ns core)
    (htag : TagWrittenAs ts tag) (hp : ofNumbers? ts ns = some p) : p.WrittenAs (core ++ tag) := by
  have hnil : Text.AllBlank [] := List.forall_mem_nil _
  have h := WrittenAs.mk hnil (.inl rfl) hnil (.inl rfl) hcore htag (.inl hnil) hp
  simpa using h

end Pattern

/-! ## Versions -/

def numbersText (ns : List Nat) : List Char := ['.'].intercalate (ns.map (Nat.toDigits 10))

theorem numbersText_ne_nil (hns : ns ≠ []) : numbersText ns ≠ [] := by
  obtain ⟨n, ns, rfl⟩ := List.exists_cons_of_ne_nil hns
  exact intercalate_point_ne_nil Nat.toDigits_ne_nil _

theorem numbersWrittenAs_numbersText (hlength : ns.length ≤ 3) (h : ∀ n ∈ ns, n < UInt64.size) :
    NumbersWrittenAs ns (numbersText ns) := by
  refine ⟨ns.map (Nat.toDigits 10), [], ?_, List.forall_mem_nil _, by simpa using hlength, ?_⟩
  · rw [List.forall₂_map_right_iff, List.forall₂_same]
    exact fun n hn => isNumber_toDigits (h n hn)
  · rw [List.append_nil]
    rfl

theorem tagWrittenAs_tagText (h : ∀ t ∈ ts, t.WellFormed) :
    TagWrittenAs ts (tagText ts).toList := by
  by_cases hts : ts = []
  · rw [hts]
    exact .inl ⟨rfl, rfl⟩
  · refine .inr ⟨_, ⟨hts, ts.map fun t => t.text.toList, ?_, rfl⟩, ?_⟩
    · rw [List.forall₂_map_right_iff, List.forall₂_same]
      exact fun t ht => (h t ht).writtenAs_text
    · have hsome : ts.isEmpty = false := by simpa using hts
      rw [tagText, hsome, if_neg Bool.false_ne_true, String.toList_append,
        String.toList_intercalate, List.map_map]
      rfl

/-- The text of a version: its numbers, and its tag after them. -/
theorem toList_text (v : Version) :
    v.text.toList = numbersText [v.major, v.minor, v.patch] ++ (tagText v.tags).toList := by
  simp [text, numbersText, List.intercalate_cons_cons]

/-- Some text writes the version. -/
structure WellFormed (v : Version) : Prop where
  major : v.major < UInt64.size
  minor : v.minor < UInt64.size
  patch : v.patch < UInt64.size
  tags : ∀ t ∈ v.tags, t.WellFormed

namespace WellFormed

variable {v : Version}

theorem numbers (h : v.WellFormed) :
    NumbersWrittenAs [v.major, v.minor, v.patch] (numbersText [v.major, v.minor, v.patch]) :=
  numbersWrittenAs_numbersText le_rfl (by simp [h.major, h.minor, h.patch])

theorem writtenAs_text (h : v.WellFormed) : (Pattern.full v).WrittenAs v.text.toList := by
  rw [toList_text]
  exact Pattern.writtenAs_plain h.numbers (tagWrittenAs_tagText h.tags) rfl

/-- The text of a version is read as the version. -/
theorem ofText?_text (h : v.WellFormed) : Pattern.ofText? v.text.toList = some (.full v) :=
  Pattern.ofText?_eq_some_iff.2 h.writtenAs_text

theorem isWord_text (h : v.WellFormed) : IsWord v.text.toList := by
  rw [toList_text]
  refine IsVersionChar.isWord ?_ (List.forall_mem_append.2
    ⟨h.numbers.isVersionChar, (tagWrittenAs_tagText h.tags).isVersionChar⟩)
  simp [numbersText_ne_nil]

end WellFormed

/-- A pattern with all three numbers has the tag of its text. -/
theorem Pattern.eq_of_ofNumbers?_full {v : Version} (h : ofNumbers? ts ns = some (.full v)) :
    ns = [v.major, v.minor, v.patch] ∧ ts = v.tags := by
  unfold ofNumbers? at h
  split at h <;> cases h
  exact ⟨rfl, rfl⟩

theorem Pattern.WrittenAs.wellFormed {v : Version} (h : (Pattern.full v).WrittenAs cs) :
    v.WellFormed := by
  obtain ⟨-, -, -, -, hcore, htag, -, hp⟩ := h
  obtain ⟨rfl, rfl⟩ := eq_of_ofNumbers?_full hp
  exact ⟨hcore.bound _ (by simp), hcore.bound _ (by simp), hcore.bound _ (by simp),
    htag.wellFormed⟩

end Version

end ScriptFold