import ScriptFold.Literal
import ScriptFold.Proofs.Grammar.Inversion
import ScriptFold.Proofs.Literal.Lexemes
import ScriptFold.Proofs.Number.ReadBack

/-!
Reading the text of a JSON value as an expression.

The expression has the shape of the value: each part is spelled by one node, and a number with a
sign by two. The text that a compact printer writes has the tokens of such a tree, written without
parentheses; as reading inverts writing, this tree is what is read, up to identities and spans.
-/

namespace ScriptFold

mutual

/-- The expression has the shape of the value. -/
inductive Spells : Expr → Json → Prop
  | null (n : Node) : Spells (.null n) .null
  | bool (n : Node) (b : Bool) : Spells (.bool n b) (.bool b)
  | string (n : Node) (s : String) : Spells (.string n s) (.string s)
  | number (n : Node) {x : Float} {j : Json} (h : j.number? = some x) : Spells (.number n x) j
  | negative (n m : Node) {x : Float} {j : Json} (h : j.number? = some (-x)) :
    Spells (.unary n .neg (.number m x)) j
  | array (n : Node) {es : List (Option Expr)} {items : List Json} (h : SpellsItems es items) :
    Spells (.array n es) (.array items)
  | object (n : Node) {ms : List Expr} {entries : List (String × Json)}
    (h : SpellsEntries ms entries) : Spells (.object n ms) (.object entries)

inductive SpellsItems : List (Option Expr) → List Json → Prop
  | nil : SpellsItems [] []
  | cons {e : Expr} {j : Json} {es : List (Option Expr)} {items : List Json} (h : Spells e j)
    (hrest : SpellsItems es items) : SpellsItems (some e :: es) (j :: items)

inductive SpellsEntries : List Expr → List (String × Json) → Prop
  | nil : SpellsEntries [] []
  | cons (n m : Node) {key : String} {e : Expr} {j : Json} {ms : List Expr}
    {entries : List (String × Json)} (h : Spells e j) (hrest : SpellsEntries ms entries) :
    SpellsEntries (.property n (.string m key) e false false :: ms) ((key, j) :: entries)

end

/-! ## How the shape is spelled -/

open ScriptFold.Expr

/-- There is no comma after a last item. -/
def plainStyle : Style := ⟨fun _ => false, fun _ => false⟩

theorem Spells.rank_ne_zero {e : Expr} {j : Json} (h : Spells e j) : e.rank ≠ 0 := by
  cases h <;> simp [rank]

theorem SpellsItems.spelled {es : List (Option Expr)} {items : List Json}
    (h : SpellsItems es items) : spelledElements plainStyle false es =
      [TokenKind.mark .comma].intercalate (es.reduceOption.map (spelled plainStyle)) := by
  induction es generalizing items with
  | nil => rfl
  | cons e rest ih =>
    cases h with
    | cons hfirst hrest =>
      rw [spelledElements, ih hrest]
      cases hrest <;> simp [bracketed, separator, hfirst.rank_ne_zero]

theorem SpellsEntries.spelled {ms : List Expr} {entries : List (String × Json)}
    (h : SpellsEntries ms entries) : spelledAll plainStyle false ms =
      [TokenKind.mark .comma].intercalate (ms.map (spelled plainStyle)) := by
  induction ms generalizing entries with
  | nil => rfl
  | cons m rest ih =>
    cases h with
    | cons n m hfirst hrest =>
      rw [spelledAll, ih hrest]
      cases hrest <;> simp [bracketed, separator, rank]

/-! ## What the grammar can express -/

theorem grammatical_of_leaf {e : Expr} (hoperand : e.isOperand) (hname : e.name? = none)
    (hproper : e.Proper) (hchildren : e.children = []) : e.Grammatical := by
  refine ⟨hoperand, fun x hx => ?_, everywhere_of_leaf (sayable_of_leaf hproper hchildren) hchildren⟩
  rw [hname] at hx
  cases hx

theorem grammatical_string (n : Node) (s : String) : (Expr.string n s).Grammatical :=
  grammatical_of_leaf rfl rfl trivial rfl

theorem grammatical_number (n : Node) (x : Float) : (Expr.number n x).Grammatical :=
  grammatical_of_leaf rfl rfl trivial rfl

mutual

theorem Spells.grammatical {e : Expr} {j : Json} (h : Spells e j) : e.Grammatical :=
  match h with
  | .null _ | .bool _ _ => grammatical_of_leaf rfl rfl trivial rfl
  | .string n s => grammatical_string n s
  | .number n _ => grammatical_number n _
  | .negative n m _ => by
    refine ⟨rfl, by rintro _ ⟨⟩, everywhere_of ⟨rfl, ?_⟩ ?_⟩
    · exact List.forall_mem_singleton.2 (grammatical_number m _).hasFreeName
    · exact List.forall_mem_singleton.2 (grammatical_number m _).everywhere
  | .array n hitems => by
    have hall := hitems.grammatical
    refine ⟨rfl, by rintro _ ⟨⟩, everywhere_of ⟨fun e he => ?_, fun e he => ?_⟩ fun e he => ?_⟩
    · exact isElement_of_isOperand (hall e he).isOperand
    · exact (hall e (by simpa [Expr.values, children] using he)).hasFreeName
    · exact (hall e (by simpa [children] using he)).everywhere
  | .object n hentries => by
    have hall := hentries.sayable
    refine ⟨rfl, by rintro _ ⟨⟩, everywhere_of ⟨fun m hm => ?_, fun m hm => ?_⟩ fun m hm => ?_⟩
    · exact (hall m hm).1
    · exact (hall m hm).2.1
    · exact (hall m hm).2.2

theorem SpellsItems.grammatical {es : List (Option Expr)} {items : List Json}
    (h : SpellsItems es items) : ∀ e, some e ∈ es → e.Grammatical :=
  match h with
  | .nil => by simp
  | .cons hfirst hrest => by
    intro e he
    rcases List.mem_cons.1 he with heq | he
    · cases heq
      exact hfirst.grammatical
    · exact hrest.grammatical e he

theorem SpellsEntries.sayable {ms : List Expr} {entries : List (String × Json)}
    (h : SpellsEntries ms entries) : ∀ m ∈ ms, m.isMember ∧ m.HasFreeName ∧ m.Everywhere Sayable :=
  match h with
  | .nil => by simp
  | .cons n k hfirst hrest => by
    intro m hm
    rcases List.mem_cons.1 hm with rfl | hm
    · have hvalue := hfirst.grammatical
      refine ⟨rfl, by rintro _ ⟨⟩, everywhere_of ⟨⟨rfl, hvalue.isOperand⟩, ?_⟩ ?_⟩
      · simpa [Expr.values] using hvalue.hasFreeName
      · simpa [children] using ⟨(grammatical_string k _).everywhere, hvalue.everywhere⟩
    · exact hrest.sayable m hm

end

/-! ## Trees that differ in identities and spans only -/

mutual

theorem Spells.of_bare {d e : Expr} {j : Json} (h : Spells e j) (hd : d.bare = e.bare) :
    Spells d j :=
  match h with
  | .null _ => by
    cases d <;> cases hd
    exact .null _
  | .bool _ b => by
    cases d <;> cases hd
    exact .bool _ b
  | .string _ s => by
    cases d <;> cases hd
    exact .string _ s
  | .number _ hj => by
    cases d <;> cases hd
    exact .number _ hj
  | .negative _ _ hj => by
    cases d with
    | unary n op a =>
      cases a <;> cases hd
      exact .negative n _ hj
    | _ => cases hd
  | .array _ hitems => by
    cases d with
    | array n ds => exact .array n (hitems.of_bare (Expr.array.inj hd).2)
    | _ => cases hd
  | .object _ hentries => by
    cases d with
    | object n ds => exact .object n (hentries.of_bare (Expr.object.inj hd).2)
    | _ => cases hd

theorem SpellsItems.of_bare {ds es : List (Option Expr)} {items : List Json}
    (h : SpellsItems es items) (hd : bareElements ds = bareElements es) : SpellsItems ds items :=
  match ds, h with
  | [], .nil => .nil
  | none :: _, .nil | some _ :: _, .nil => by cases hd
  | [], .cons _ _ | none :: _, .cons _ _ => by cases hd
  | some d :: more, .cons hfirst hrest => by
    obtain ⟨hone, hmore⟩ := List.cons.inj hd
    exact .cons (hfirst.of_bare (Option.some.inj hone)) (hrest.of_bare hmore)

theorem SpellsEntries.of_bare {ds ms : List Expr} {entries : List (String × Json)}
    (h : SpellsEntries ms entries) (hd : bareAll ds = bareAll ms) : SpellsEntries ds entries :=
  match ds, h with
  | [], .nil => .nil
  | _ :: _, .nil => by cases hd
  | [], .cons _ _ _ _ => by cases hd
  | d :: more, .cons _ _ hfirst hrest => by
    obtain ⟨hone, hmore⟩ := List.cons.inj hd
    cases d with
    | property n k v computed shorthand =>
      injection hone with _ hk hv hcomputed hshorthand
      subst hcomputed hshorthand
      cases k <;> cases hk
      exact .cons n _ (hfirst.of_bare hv) (hrest.of_bare hmore)
    | _ => cases hone

end

/-! ## Texts of values -/

theorem intText (n : Int) : toString n =
    String.ofList (Number.signText (n < 0) ++ Nat.toDigits 10 n.natAbs) := by
  cases n with
  | ofNat n => rfl
  | negSucc n =>
    have htext : toString (Int.negSucc n) = "-" ++ String.ofList (Nat.toDigits 10 (n + 1)) := rfl
    refine String.toList_inj.1 ?_
    rw [htext, decide_eq_true (Int.negSucc_lt_zero n), Int.natAbs_negSucc]
    simp only [String.toList_append, String.toList_ofList]
    rfl

theorem readDecimal_intText (n : Int) :
    Number.readDecimal (Number.signText (n < 0) ++ Nat.toDigits 10 n.natAbs) =
      some (Float.ofInt n) := by
  unfold Number.readDecimal
  rw [Number.readSign_numeral _ (Number.isNumeral_natText _)]
  simp only [Number.readUnsigned_natText, Option.map_some]
  cases n with
  | ofNat n => rfl
  | negSucc n =>
    rw [decide_eq_true (Int.negSucc_lt_zero n)]
    rfl

/-- The text spells a tree of the shape of the value. -/
def TextSpells (text : String) (j : Json) : Prop :=
  ∃ e, Spells e j ∧ Reads text (e.spelled plainStyle)

/-- A number is spelled by one node, or by two if there is a sign. -/
theorem textSpells_number {negative : Bool} {cs : List Char} {x : Float} {j : Json}
    (hcs : IsNumeral cs) (hx : Number.readDecimal (Number.signText negative ++ cs) = some x)
    (hj : j.number? = some x) : TextSpells (String.ofList (Number.signText negative ++ cs)) j := by
  unfold Number.readDecimal at hx
  rw [Number.readSign_numeral _ hcs] at hx
  obtain ⟨y, hy, rfl⟩ := Option.map_eq_some_iff.1 hx
  have hreads : Reads (String.ofList (Number.signText negative ++ cs)) (numberKinds negative y) := by
    intro rest hrest
    rw [String.toList_ofList]
    exact lexes_number hcs hy hrest
  cases negative with
  | false => exact ⟨.number default y, .number _ hj, hreads⟩
  | true => exact ⟨.unary default .neg (.number default y), .negative _ _ hj, hreads⟩

mutual

/-- A compact printer writes a text that spells the value. -/
theorem textSpells_print {print : Json.Printer} (hprint : Json.Compact print) (j : Json)
    (hj : j.Printable) :
    ∃ text, print j = .ok text ∧ TextSpells text j :=
  match j with
  | .null => ⟨_, hprint.null, .null default, .null _, fun _ => lexes_null⟩
  | .bool b => by
    refine ⟨_, hprint.bool b, .bool default b, .bool _ b, fun rest hrest => ?_⟩
    cases b with
    | false => exact lexes_bool false hrest
    | true => exact lexes_bool true hrest
  | .int n => by
    refine ⟨_, hprint.int n hj, ?_⟩
    rw [intText]
    exact textSpells_number (Number.isNumeral_natText _) (readDecimal_intText n) rfl
  | .float x => by
    obtain ⟨negative, cs, htext, hcs, hx⟩ := hprint.float x hj
    exact ⟨_, htext, textSpells_number hcs hx rfl⟩
  | .string s => by
    obtain ⟨text, htext, hwrites⟩ := hprint.string s
    exact ⟨text, htext, .string default s, .string _ s, fun rest _ => lexes_string hwrites rest⟩
  | .array items => by
    obtain ⟨texts, es, htexts, hes, hreads⟩ := textSpells_printItems hprint items hj
    refine ⟨_, hprint.array htexts, .array default es, .array _ hes, fun rest _ => ?_⟩
    have hclose : Lexes [']'] [.mark .rbracket] rest := (Lexes.nil rest).cons fun _ => rfl
    have hinner := reads_intercalate hreads (']' :: rest) (closes_cons (by decide) rest)
    have hall : Lexes ('[' :: ((String.intercalate "," texts).toList ++ [']'])) _ rest :=
      (hinner.append hclose).cons fun _ => rfl
    rw [← hes.spelled] at hall
    simpa [spelled, plainStyle] using hall
  | .object entries => by
    obtain ⟨texts, ms, htexts, hms, hreads⟩ := textSpells_printEntries hprint entries hj
    refine ⟨_, hprint.object htexts, .object default ms, .object _ hms, fun rest _ => ?_⟩
    have hclose : Lexes ['\x7d'] [.mark .rbrace] rest := (Lexes.nil rest).cons fun _ => rfl
    have hinner := reads_intercalate hreads ('\x7d' :: rest) (closes_cons (by decide) rest)
    have hall : Lexes ('\x7b' :: ((String.intercalate "," texts).toList ++ ['\x7d'])) _ rest :=
      (hinner.append hclose).cons fun _ => rfl
    rw [← hms.spelled] at hall
    simpa [spelled, plainStyle] using hall

theorem textSpells_printItems {print : Json.Printer} (hprint : Json.Compact print)
    (items : List Json) (h : Json.PrintableItems items) :
    ∃ texts es, List.Forall₂ (fun j text => print j = .ok text) items texts ∧
      SpellsItems es items ∧
        List.Forall₂ Reads texts (es.reduceOption.map (spelled plainStyle)) :=
  match items with
  | [] => ⟨[], [], .nil, .nil, .nil⟩
  | item :: rest => by
    obtain ⟨text, htext, e, he, hread⟩ := textSpells_print hprint item h.1
    obtain ⟨texts, es, htexts, hes, hreads⟩ := textSpells_printItems hprint rest h.2
    exact ⟨text :: texts, some e :: es, .cons htext htexts, .cons he hes, .cons hread hreads⟩

theorem textSpells_printEntries {print : Json.Printer} (hprint : Json.Compact print)
    (entries : List (String × Json)) (h : Json.PrintableEntries entries) :
    ∃ texts ms, List.Forall₂ (Json.WritesEntry print) entries texts ∧ SpellsEntries ms entries ∧
      List.Forall₂ Reads texts (ms.map (spelled plainStyle)) :=
  match entries with
  | [] => ⟨[], [], .nil, .nil, .nil⟩
  | (key, value) :: rest => by
    obtain ⟨keyText, hkey, hwrites⟩ := hprint.string key
    obtain ⟨text, htext, e, he, hread⟩ := textSpells_print hprint value h.1
    obtain ⟨texts, ms, htexts, hms, hreads⟩ := textSpells_printEntries hprint rest h.2
    refine ⟨_ :: texts, .property default (.string default key) e false false :: ms,
      .cons ⟨keyText, text, hkey, htext, rfl⟩ htexts, .cons _ _ he hms, .cons ?_ hreads⟩
    intro after hafter
    have hcolon : Lexes (':' :: text.toList) (.mark .colon :: e.spelled plainStyle) after :=
      (hread after hafter).cons fun _ => rfl
    simpa [spelled, bracketed, he.rank_ne_zero] using (lexes_string hwrites _).append hcolon

end

/-! ## Whole texts -/

/-- The tree of the source that a literal is read from: a call with the literal as its argument. -/
def callTree (e : Expr) : Expr := .call default (.ident default "a") [e] false

theorem spelled_callTree {e : Expr} {j : Json} (h : Spells e j) :
    (callTree e).spelled plainStyle =
      .ident "a" :: .mark .lparen :: (e.spelled plainStyle ++ [.mark .rparen]) := by
  have hname : (ident default "a").spelled plainStyle = [.ident "a"] := rfl
  have hparens : (ident default "a").parenthesized false = false := rfl
  rw [callTree, spelled, hname, hparens]
  simp [plainStyle, spelledAll, marked, bracketed, separator, h.rank_ne_zero]

theorem grammatical_callTree {e : Expr} (h : e.Grammatical) : (callTree e).Grammatical := by
  have hname : (ident default "a").HasFreeName := by
    rintro _ ⟨⟩
    rfl
  refine ⟨rfl, by rintro _ ⟨⟩, everywhere_of ⟨⟨rfl, ?_⟩, ?_⟩ ?_⟩
  · exact List.forall_mem_singleton.2 (isElement_of_isOperand h.isOperand)
  · exact List.forall_mem_cons.2 ⟨hname, List.forall_mem_singleton.2 h.hasFreeName⟩
  · exact List.forall_mem_cons.2 ⟨everywhere_of_leaf (sayable_of_leaf trivial rfl) rfl,
      List.forall_mem_singleton.2 h.everywhere⟩

/-- A call that is such a tree has the literal as its only argument. -/
theorem call_of_bare {d e : Expr} {j : Json} (he : Spells e j) (h : d.bare = (callTree e).bare) :
    ∃ n f x, d = .call n f [x] false ∧ Spells x j := by
  cases d with
  | call n f xs optional =>
    injection h with _ hf hxs hoptional
    subst hoptional
    match xs with
    | [] => cases hxs
    | [x] => exact ⟨n, f, x, rfl, he.of_bare (List.cons.inj hxs).1⟩
    | _ :: _ :: _ => cases (List.cons.inj hxs).2
  | _ => cases h

theorem hasKinds_sourceOf {text : String} {ks : List TokenKind} (h : Reads text ks) :
    HasKinds (Literal.sourceOf text) (.ident "a" :: .mark .lparen :: (ks ++ [.mark .rparen])) := by
  have htext : (Literal.sourceOf text).toList = ['a'] ++ '(' :: (text.toList ++ [')']) := by
    simp [Literal.sourceOf]
  have hclose : Lexes [')'] [.mark .rparen] [] := (Lexes.nil []).cons fun _ => rfl
  have hvalue := (h [')'] (closes_cons (by decide) [])).append hclose
  have hcall : Lexes ('(' :: (text.toList ++ [')'])) (.mark .lparen :: (ks ++ [.mark .rparen])) [] :=
    hvalue.cons fun _ => rfl
  refine hasKinds_of_lexes ?_
  rw [htext]
  exact (lexes_name _).append hcall

/-- **A text that spells a value reads back as an expression of its shape**, whose nodes are
distinct. -/
theorem ofText_spells {text : String} {j : Json} (h : TextSpells text j) (firstId : NodeId) :
    ∃ e next, Literal.ofText text firstId = .ok (e, next) ∧ Spells e j ∧ e.ids.Nodup := by
  obtain ⟨e, he, hreads⟩ := h
  obtain ⟨hdiagnostics, hkinds⟩ := hasKinds_sourceOf hreads
  rw [← spelled_callTree he] at hkinds
  obtain ⟨hbare, hreach⟩ :=
    Grammar.gets_spelled _ (grammatical_callTree he.grammatical) hkinds firstId
  obtain ⟨n, f, x, hread, hx⟩ :
      ∃ n f x, (parseExpression (Literal.sourceOf text) firstId).value = .call n f [x] false ∧
        Spells x j := call_of_bare he hbare
  have hclean : (parseExpression (Literal.sourceOf text) firstId).diagnostics = [] := by
    rw [parseExpression, Grammar.read, hdiagnostics, List.nil_append]
    exact hreach.diagnostics
  refine ⟨x, (parseExpression (Literal.sourceOf text) firstId).nextId, ?_, hx, ?_⟩
  · rw [Literal.ofText]
    simp only [hclean, ne_eq, not_true_eq_false, if_false, hread]
  · have hnodup := (Grammar.parseExpression_numbered (Literal.sourceOf text) firstId).nodup
    rw [hread] at hnodup
    simp only [Expr.ids, Expr.idsAll, List.append_nil] at hnodup
    exact (List.nodup_append.1 (List.nodup_append.1 hnodup).1).2.1

/-- The literal of a value that can be printed has the shape of the value. -/
theorem ofJson_spells {print : Json.Printer} (hprint : Json.Compact print) {j : Json}
    (hj : j.Printable) (firstId : NodeId) :
    ∃ e next, Literal.ofJson print j firstId = .ok (e, next) ∧ Spells e j ∧ e.ids.Nodup := by
  obtain ⟨text, htext, hspells⟩ := textSpells_print hprint j hj
  obtain ⟨e, next, hread, h⟩ := ofText_spells hspells firstId
  refine ⟨e, next, ?_, h⟩
  rw [Literal.ofJson, htext]
  exact hread

end ScriptFold
