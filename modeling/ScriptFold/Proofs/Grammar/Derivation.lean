import ScriptFold.Proofs.Grammar.Motion

/-!
The grammar of expressions, and readings without a complaint.

`Derives r tokens` says that the tokens may be written for the piece `r` of a tree. There are no
cursors in it and no recoveries, and it leaves open which of several trees a reader builds. A
reading that complains about nothing moves over tokens that derive what it gives: every path that
drops a token or a part of a tree, or that builds an invalid node, has complained.
-/

namespace ScriptFold.Grammar

open Cursor

/-- `Derives r tokens`: the tokens make up the piece `r`. The span of a node that one token is read
as is the span of that token. -/
inductive Derives : Reading → List Token → Prop
  | atom {make : Node → Expr} {n : Node} {k : Token} (hk : atom? k.kind = some make)
    (hn : n.span = k.span) : Derives (.expr (make n)) [k]
  | group {e : Expr} {opening closing : Token} {passed : List Token}
    (hopening : opening.kind = .mark .lparen) (he : Derives (.expr e) passed)
    (hclosing : closing.kind = .mark .rparen) :
    Derives (.expr e) ([opening] ++ passed ++ [closing])
  | array (n : Node) {es : List (Option Expr)} {opening closing : Token} {passed : List Token}
    (hopening : opening.kind = .mark .lbracket) (hes : Derives (.elements es) passed)
    (hclosing : closing.kind = .mark .rbracket) :
    Derives (.expr (.array n es)) ([opening] ++ passed ++ [closing])
  | object (n : Node) {ms : List Expr} {opening closing : Token} {passed : List Token}
    (hopening : opening.kind = .mark .lbrace) (hms : Derives (.items .member ms) passed)
    (hclosing : closing.kind = .mark .rbrace) :
    Derives (.expr (.object n ms)) ([opening] ++ passed ++ [closing])
  | unary (n : Node) {op : UnaryOp} {a : Expr} {k : Token} {passed : List Token}
    (hk : unaryOp? k.kind = some op) (ha : Derives (.expr a) passed) :
    Derives (.expr (.unary n op a)) ([k] ++ passed)
  | connective (n : Node) {level : Nat} {op : Connective} {l r : Expr} {k : Token}
    {left right : List Token} (hl : Derives (.expr l) left)
    (hk : connective? k.kind = some (level, op)) (hr : Derives (.expr r) right) :
    Derives (.expr (op.apply n l r)) (left ++ [k] ++ right)
  | conditional (n : Node) {test c a : Expr} {question colon : Token}
    {before between after : List Token} (htest : Derives (.expr test) before)
    (hquestion : question.kind = .mark .question) (hc : Derives (.expr c) between)
    (hcolon : colon.kind = .mark .colon) (ha : Derives (.expr a) after) :
    Derives (.expr (.conditional n test c a)) (before ++ [question] ++ between ++ [colon] ++ after)
  | assign (n : Node) {op : AssignOp} {target value : Expr} {k : Token} {left right : List Token}
    (htarget : Derives (.expr target) left) (hassignable : target.isAssignable)
    (hk : assignOp? k.kind = some op) (hvalue : Derives (.expr value) right) :
    Derives (.expr (.assign n op target value)) (left ++ [k] ++ right)
  | sequence (n : Node) {first second : Expr} {more : List Expr} {passed rest : List Token}
    (hfirst : Derives (.expr first) passed) (hmore : Derives (.operands (second :: more)) rest) :
    Derives (.expr (.sequence n (first :: second :: more))) (passed ++ rest)
  | operandsEnd : Derives (.operands []) []
  | operand {e : Expr} {more : List Expr} {comma : Token} {passed rest : List Token}
    (hcomma : comma.kind = .mark .comma) (he : Derives (.expr e) passed)
    (hmore : Derives (.operands more) rest) :
    Derives (.operands (e :: more)) ([comma] ++ passed ++ rest)
  | named (n : Node) {e : Expr} {m : Node} {x : String} {optional : Bool} {link name : Token}
    {passed : List Token} (he : Derives (.expr e) passed) (hlink : (link? link.kind).isSome)
    (hname : name.kind.name? = some x) (hm : m.span = name.span) :
    Derives (.expr (.member n e (.ident m x) false optional)) (passed ++ [link] ++ [name])
  | index (n : Node) {e key : Expr} {optional : Bool} {closing : Token}
    {passed opening inner : List Token} (he : Derives (.expr e) passed)
    (hopening : ∀ k ∈ opening, (link? k.kind).isSome) (hkey : Derives (.expr key) inner)
    (hclosing : closing.kind = .mark .rbracket) :
    Derives (.expr (.member n e key true optional)) (passed ++ opening ++ inner ++ [closing])
  | call (n : Node) {f : Expr} {xs : List Expr} {optional : Bool} {closing : Token}
    {passed opening inner : List Token} (hf : Derives (.expr f) passed)
    (hopening : ∀ k ∈ opening, (link? k.kind).isSome) (hxs : Derives (.items .element xs) inner)
    (hclosing : closing.kind = .mark .rparen) :
    Derives (.expr (.call n f xs optional)) (passed ++ opening ++ inner ++ [closing])
  | elementsEnd : Derives (.elements []) []
  | hole {more : List (Option Expr)} {comma : Token} {rest : List Token}
    (hcomma : comma.kind = .mark .comma) (hmore : Derives (.elements more) rest) :
    Derives (.elements (none :: more)) ([comma] ++ rest)
  | lastElement {e : Expr} {passed : List Token} (he : Derives (.item .element (some e)) passed) :
    Derives (.elements [some e]) passed
  | element {e : Expr} {more : List (Option Expr)} {comma : Token} {passed rest : List Token}
    (he : Derives (.item .element (some e)) passed) (hcomma : comma.kind = .mark .comma)
    (hmore : Derives (.elements more) rest) :
    Derives (.elements (some e :: more)) (passed ++ [comma] ++ rest)
  | plain {e : Expr} {passed : List Token} (he : Derives (.expr e) passed) :
    Derives (.item .element (some e)) passed
  | spread (n : Node) {place : Place} {a : Expr} {k : Token} {passed : List Token}
    (hk : k.kind = .mark .ellipsis) (ha : Derives (.expr a) passed) :
    Derives (.item place (some (.spread n a))) ([k] ++ passed)
  | property (n : Node) {make : Node → Expr} {short : Option String} {m : Node} {value : Expr}
    {key colon : Token} {passed : List Token} (hkey : plainKey? key.kind = some (make, short))
    (hm : m.span = key.span) (hcolon : colon.kind = .mark .colon)
    (hvalue : Derives (.expr value) passed) :
    Derives (.item .member (some (.property n (make m) value false false)))
      ([key] ++ [colon] ++ passed)
  | shorthand (n : Node) {x : String} {m l : Node} {key : Token}
    (hkey : key.kind.name? = some x) (hm : m.span = key.span) (hl : m.id ≠ l.id) :
    Derives (.item .member (some (.property n (.ident m x) (.ident l x) false true))) [key]
  | computed (n : Node) {key value : Expr} {opening closing colon : Token}
    {inner passed : List Token} (hopening : opening.kind = .mark .lbracket)
    (hkey : Derives (.expr key) inner) (hclosing : closing.kind = .mark .rbracket)
    (hcolon : colon.kind = .mark .colon) (hvalue : Derives (.expr value) passed) :
    Derives (.item .member (some (.property n key value true false)))
      ([opening] ++ inner ++ [closing] ++ [colon] ++ passed)
  | itemsEnd (place : Place) : Derives (.items place []) []
  | lastItem {place : Place} {e : Expr} {passed : List Token}
    (he : Derives (.item place (some e)) passed) : Derives (.items place [e]) passed
  | item {place : Place} {e : Expr} {more : List Expr} {comma : Token} {passed rest : List Token}
    (he : Derives (.item place (some e)) passed) (hcomma : comma.kind = .mark .comma)
    (hmore : Derives (.items place more) rest) :
    Derives (.items place (e :: more)) (passed ++ [comma] ++ rest)

theorem plainKey?_short {k : TokenKind} {make : Node → Expr} {x : String}
    (h : plainKey? k = some (make, some x)) : k.name? = some x ∧ make = fun n => .ident n x := by
  cases k with
  | ident y =>
    cases h
    exact ⟨rfl, rfl⟩
  | keyword w => cases w <;> cases h <;> exact ⟨rfl, rfl⟩
  | number y => cases h
  | string y => cases h
  | mark m => cases h
  | eof => cases h
  | error => cases h

theorem eat_ne_none_of_isAt {s : Cursor} {m : Mark} (h : s.isAt m) : s.eat m ≠ none := by
  have hkind : s.kind = .mark m := of_decide_eq_true h
  obtain ⟨rest, finish, last, nextId, diagnostics⟩ := s
  cases rest with
  | nil => cases hkind
  | cons t rest =>
    have ht : t.kind = .mark m := hkind
    simp [eat, take, ht]

/-- **Readings move over tokens that derive what they give**, unless something was complained
about. -/
theorem Reads.spells {s t : Cursor} {r : Reading} (h : Reads s r t) :
    s.Spells {passed | Derives r passed} t := by
  induction h with
  | @atom s t _ make span htake =>
    refine ((spells_take htake).still (t.moves_node span)).mono ?_
    rintro _ ⟨k, hk, rfl⟩
    exact Derives.atom hk rfl
  | nothing s => exact (spells_noExpression s).mono nofun
  | @group s t u _ e hopen _ ih =>
    refine (((spells_eat hopen).trans ih).trans (u.spells_closing .paren s.span)).mono ?_
    rintro _ ⟨_, ⟨_, ⟨opening, rfl⟩, passed, he, rfl⟩, _, ⟨-, closing, rfl⟩, rfl⟩
    exact Derives.group rfl he rfl
  | @array s t u v _ es hopen _ hclose ih =>
    subst hclose
    have hclose := u.spells_closing .bracket s.span
    refine ((((spells_eat hopen).trans ih).trans hclose).still (Cursor.moves_node _ _)).mono ?_
    rintro _ ⟨_, ⟨_, ⟨opening, rfl⟩, passed, hes, rfl⟩, _, ⟨-, closing, rfl⟩, rfl⟩
    exact Derives.array _ rfl hes rfl
  | @object s t u v _ ms hopen _ hclose ih =>
    subst hclose
    have hclose := u.spells_closing .brace s.span
    refine ((((spells_eat hopen).trans ih).trans hclose).still (Cursor.moves_node _ _)).mono ?_
    rintro _ ⟨_, ⟨_, ⟨opening, rfl⟩, passed, hms, rfl⟩, _, ⟨-, closing, rfl⟩, rfl⟩
    exact Derives.object _ rfl hms rfl
  | @unary s t u _ op span a htake _ ih =>
    refine (((spells_take htake).trans ih).still (u.moves_node _)).mono ?_
    rintro _ ⟨_, ⟨k, hk, rfl⟩, passed, ha, rfl⟩
    exact Derives.unary _ hk ha
  | @connective s t u v _ least level op span l r _ htake _ ihl ihr =>
    refine (((ihl.trans (spells_take htake)).trans ihr).still (v.moves_node _)).mono ?_
    rintro _ ⟨_, ⟨left, hl, _, ⟨k, hk, rfl⟩, rfl⟩, right, hr, rfl⟩
    obtain ⟨hk, -⟩ := Option.filter_eq_some_iff.1 hk
    exact Derives.connective _ hl hk hr
  | @conditional s t u v w _ test c a _ hquestion _ _ iht ihc iha =>
    have hthen := (iht.trans (spells_eat hquestion)).trans ihc
    have helse := (hthen.trans (v.spells_expect (.mark .colon))).trans iha
    refine (helse.still (w.moves_node _)).mono ?_
    rintro _ ⟨_, ⟨_, ⟨_, ⟨before, htest, _, ⟨question, rfl⟩, rfl⟩, between, hc, rfl⟩,
      _, ⟨-, colon, rfl⟩, rfl⟩, after, ha, rfl⟩
    exact Derives.conditional _ htest rfl hc rfl ha
  | @assign s t u v _ op span target value _ htake _ iht ihv =>
    have hleft := (iht.trans (spells_take htake)).trans (spells_checkTarget target u)
    refine ((hleft.trans ihv).still (v.moves_node _)).mono ?_
    rintro _ ⟨_, ⟨_, ⟨left, htarget, _, ⟨k, hk, rfl⟩, rfl⟩, _, ⟨rfl, hassignable⟩, rfl⟩,
      right, hvalue, rfl⟩
    change Derives _ (left ++ [⟨k, span⟩] ++ [] ++ right)
    rw [List.append_nil]
    exact Derives.assign _ htarget hassignable hk hvalue
  | @sequence s t u first more _ hcomma hmore ihf ihm =>
    refine ((ihf.trans ihm).still (u.moves_node _)).mono ?_
    rintro _ ⟨passed, hfirst, rest, hrest, rfl⟩
    cases more with
    | nil =>
      cases hmore with
      | operandsEnd heat => exact absurd heat (eat_ne_none_of_isAt hcomma)
    | cons second more => exact Derives.sequence _ hfirst hrest
  | @operandsEnd s _ => exact (Spells.refl s).mono (by rintro _ rfl; exact Derives.operandsEnd)
  | operand hcomma _ _ ihe ihm =>
    refine (((spells_eat hcomma).trans ihe).trans ihm).mono ?_
    rintro _ ⟨_, ⟨_, ⟨comma, rfl⟩, passed, he, rfl⟩, rest, hmore, rfl⟩
    exact Derives.operand rfl he hmore
  | @named s t u v _ link span e optional _ htake hname ih =>
    subst hname
    have hmember := (ih.trans (spells_take htake)).trans (spells_memberName u)
    refine (hmember.still (Cursor.moves_node _ _)).mono ?_
    rintro _ ⟨_, ⟨passed, he, _, ⟨k, hk, rfl⟩, rfl⟩, _, ⟨l, nameSpan, m, x, rfl, hx, hm, hvalue⟩,
      rfl⟩
    rw [hvalue]
    exact Derives.named _ he (Option.isSome_of_eq_some hk) hx hm
  | @index s t u v w opened e key optional _ hopen _ hclose ihe ihk =>
    subst hclose
    have hkey := ((ihe.trans hopen.spells).trans ihk).trans (v.spells_closing .bracket opened)
    refine (hkey.still (Cursor.moves_node _ _)).mono ?_
    rintro _ ⟨_, ⟨_, ⟨passed, he, opening, hlinks, rfl⟩, inner, hkey, rfl⟩, _, ⟨-, closing, rfl⟩, rfl⟩
    exact Derives.index _ he hlinks hkey rfl
  | @call s t u v w opened f xs optional _ hopen _ hclose ihf ihx =>
    subst hclose
    have hcall := ((ihf.trans hopen.spells).trans ihx).trans (v.spells_closing .paren opened)
    refine (hcall.still (Cursor.moves_node _ _)).mono ?_
    rintro _ ⟨_, ⟨_, ⟨passed, hf, opening, hlinks, rfl⟩, inner, hxs, rfl⟩, _, ⟨-, closing, rfl⟩, rfl⟩
    exact Derives.call _ hf hlinks hxs rfl
  | elementsEnd s => exact (Spells.refl s).mono (by rintro _ rfl; exact Derives.elementsEnd)
  | hole hcomma _ ih =>
    refine ((spells_eat hcomma).trans ih).mono ?_
    rintro _ ⟨_, ⟨comma, rfl⟩, rest, hmore, rfl⟩
    exact Derives.hole rfl hmore
  | lastElement _ ih => exact ih.mono fun _ => Derives.lastElement
  | element _ hcomma _ ihe ihm =>
    refine ((ihe.trans (spells_eat hcomma)).trans ihm).mono ?_
    rintro _ ⟨_, ⟨passed, he, _, ⟨comma, rfl⟩, rfl⟩, rest, hmore, rfl⟩
    exact Derives.element he rfl hmore
  | plain _ ih => exact ih.mono fun _ => Derives.plain
  | @spread s t u _ place span a htake _ ih =>
    refine (((spells_take htake).trans ih).still (u.moves_node _)).mono ?_
    rintro _ ⟨_, ⟨k, hk, rfl⟩, passed, ha, rfl⟩
    simp only [Option.ite_none_right_eq_some] at hk
    exact Derives.spread _ hk.1 ha
  | @property s t u v _ make span short _ value htake hcolon _ ih =>
    have hkey := (spells_take htake).still (t.moves_node span)
    refine (((hkey.trans (spells_eat hcolon)).trans ih).still (v.moves_node _)).mono ?_
    rintro _ ⟨_, ⟨_, ⟨k, hk, rfl⟩, _, ⟨colon, rfl⟩, rfl⟩, passed, hvalue, rfl⟩
    exact Derives.property _ hk rfl rfl hvalue
  | @shorthand s t u _ make span name htake _ hvalue =>
    subst hvalue
    have hkey := (spells_take htake).still (t.moves_node span)
    refine ((hkey.still (Cursor.moves_node _ _)).still (Cursor.moves_node _ _)).mono ?_
    rintro _ ⟨k, hk, rfl⟩
    obtain ⟨hname, rfl⟩ := plainKey?_short hk
    exact Derives.shorthand _ hname rfl (Nat.ne_of_lt t.nextId.lt_succ_self)
  | @computed s t u v w x _ _ key value hopen _ hclose hcolon _ ihk ihv =>
    subst hclose
    have hkey := ((spells_eat hopen).trans ihk).trans (u.spells_closing .bracket s.span)
    refine (((hkey.trans (spells_eat hcolon)).trans ihv).still (x.moves_node _)).mono ?_
    rintro _ ⟨_, ⟨_, ⟨_, ⟨_, ⟨opening, rfl⟩, inner, hkey, rfl⟩, _, ⟨-, closing, rfl⟩, rfl⟩,
      _, ⟨colon, rfl⟩, rfl⟩, passed, hvalue, rfl⟩
    exact Derives.computed _ rfl hkey rfl rfl hvalue
  | noMember s => exact spells_of_report (.refl s) (.refl _)
  | @noColon s t _ make span htake =>
    exact spells_of_report ((leadsTo_take htake).trans (t.moves_node span).leadsTo) (.refl _)
  | @noColonComputed s t u _ key hopen _ ih =>
    have hclose := (u.spells_closing .bracket s.span).leadsTo
    exact spells_of_report (((leadsTo_eat hopen).trans ih.leadsTo).trans hclose) (.refl _)
  | itemsEnd s place => exact (Spells.refl s).mono (by rintro _ rfl; exact Derives.itemsEnd place)
  | lastItem _ ih => exact ih.mono fun _ => Derives.lastItem
  | item _ hcomma _ ihe ihm =>
    refine ((ihe.trans (spells_eat hcomma)).trans ihm).mono ?_
    rintro _ ⟨_, ⟨passed, he, _, ⟨comma, rfl⟩, rfl⟩, rest, hmore, rfl⟩
    exact Derives.item he rfl hmore
  -- An item that could not be read has been complained about, so nothing derives it.
  | @lastSkipped s t place _ n ih =>
    refine (ih.trans (t.leadsTo_skip n).spells).mono ?_
    rintro _ ⟨passed, hnone, -⟩
    nomatch hnone
  | @skipped s t u v place n _ more _ hcomma _ ihe ihm =>
    have hskip := (t.leadsTo_skip n).trans (leadsTo_eat hcomma)
    refine (ihe.trans (hskip.trans ihm.leadsTo).spells).mono ?_
    rintro _ ⟨passed, hnone, -⟩
    nomatch hnone

theorem Reads.leadsTo {s t : Cursor} {r : Reading} (h : Reads s r t) : s.LeadsTo t :=
  h.spells.leadsTo

/-- Where nothing was complained about, what was read is derived by the tokens that were read. -/
theorem Reads.derives {s t : Cursor} {r : Reading} (h : Reads s r t) (hclean : s.Clean t) :
    ∃ passed, s.Moves passed t ∧ Derives r passed := by
  obtain ⟨passed, hmoves, hderives⟩ := h.spells
  exact ⟨passed, hmoves, hderives hclean⟩

end ScriptFold.Grammar
