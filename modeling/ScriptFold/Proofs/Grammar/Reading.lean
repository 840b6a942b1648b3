import ScriptFold.Grammar.Source

/-!
What reading does, step by step.

A reading leads from one cursor to another and gives a piece of a tree. It is made of readings of
smaller pieces, of single tokens that are taken, and of recoveries. The levels of operators leave
no trace in it. Every reader carries out a reading; what all readings keep is proved by induction
on readings, with one case for each way to build a piece.
-/

namespace ScriptFold.Grammar

open Cursor

/-- What a list between commas holds. -/
inductive Place
  /-- Elements of an array or arguments of a call. -/
  | element
  /-- Members of an object. -/
  | member
deriving DecidableEq

/-- What is read. -/
inductive Reading
  | expr (e : Expr)
  /-- The operands after commas. -/
  | operands (es : List Expr)
  /-- The elements of an array, with holes. -/
  | elements (es : List (Option Expr))
  /-- One item of a list, unless it could not be read. -/
  | item (place : Place) (found : Option Expr)
  | items (place : Place) (es : List Expr)

/-- The brackets that hold a key or arguments are opened. The optional link may stand before
them. -/
inductive Opens (link : Link) (s : Cursor) (opened : Span) (t : Cursor) : Prop
  | direct {h : t.left < s.left} (htake : s.take link? = some (link, opened, ⟨t, h⟩))
  | optional {span : Span} {u : Cursor} {hu : u.left < s.left} {h : t.left < u.left}
    (hoptional : s.take link? = some (.optional, span, ⟨u, hu⟩))
    (htake : u.take link? = some (link, opened, ⟨t, h⟩))

/-- `Reads s r t`: from the cursor `s` on, up to the cursor `t`, the piece `r` is read. -/
inductive Reads : Cursor → Reading → Cursor → Prop
  | atom {s t : Cursor} {h : t.left < s.left} {make : Node → Expr} {span : Span}
    (htake : s.take atom? = some (make, span, ⟨t, h⟩)) :
    Reads s (.expr (make (t.node span).1)) (t.node span).2
  | nothing (s : Cursor) : Reads s (.expr (noExpression s).value) (noExpression s).next
  | group {s t u : Cursor} {h : t.left < s.left} {e : Expr}
    (hopen : s.eat .lparen = some ⟨t, h⟩) (he : Reads t (.expr e) u) :
    Reads s (.expr e) (u.closing .paren s.span).next
  | array {s t u v : Cursor} {h : t.left < s.left} {es : List (Option Expr)}
    (hopen : s.eat .lbracket = some ⟨t, h⟩) (hes : Reads t (.elements es) u)
    (hclose : (u.closing .bracket s.span).next = v) :
    Reads s (.expr (.array (v.node (s.span.cover v.last)).1 es))
      (v.node (s.span.cover v.last)).2
  | object {s t u v : Cursor} {h : t.left < s.left} {ms : List Expr}
    (hopen : s.eat .lbrace = some ⟨t, h⟩) (hms : Reads t (.items .member ms) u)
    (hclose : (u.closing .brace s.span).next = v) :
    Reads s (.expr (.object (v.node (s.span.cover v.last)).1 ms))
      (v.node (s.span.cover v.last)).2
  | unary {s t u : Cursor} {h : t.left < s.left} {op : UnaryOp} {span : Span} {a : Expr}
    (htake : s.take unaryOp? = some (op, span, ⟨t, h⟩)) (ha : Reads t (.expr a) u) :
    Reads s (.expr (.unary (u.node (span.cover a.span)).1 op a)) (u.node (span.cover a.span)).2
  | connective {s t u v : Cursor} {h : u.left < t.left} {least level : Nat} {op : Connective}
    {span : Span} {l r : Expr} (hl : Reads s (.expr l) t)
    (htake : t.take (connectiveFrom? least) = some ((level, op), span, ⟨u, h⟩))
    (hr : Reads u (.expr r) v) :
    Reads s (.expr (op.apply (v.node (l.span.cover r.span)).1 l r))
      (v.node (l.span.cover r.span)).2
  | conditional {s t u v w : Cursor} {h : u.left < t.left} {test c a : Expr}
    (htest : Reads s (.expr test) t) (hquestion : t.eat .question = some ⟨u, h⟩)
    (hc : Reads u (.expr c) v) (ha : Reads (v.expect (.mark .colon)).next (.expr a) w) :
    Reads s (.expr (.conditional (w.node (test.span.cover a.span)).1 test c a))
      (w.node (test.span.cover a.span)).2
  | assign {s t u v : Cursor} {h : u.left < t.left} {op : AssignOp} {span : Span}
    {target value : Expr} (htarget : Reads s (.expr target) t)
    (htake : t.take assignOp? = some (op, span, ⟨u, h⟩))
    (hvalue : Reads (checkTarget target u) (.expr value) v) :
    Reads s (.expr (.assign (v.node (target.span.cover value.span)).1 op target value))
      (v.node (target.span.cover value.span)).2
  | sequence {s t u : Cursor} {first : Expr} {more : List Expr}
    (hfirst : Reads s (.expr first) t) (hcomma : t.isAt .comma)
    (hmore : Reads t (.operands more) u) :
    Reads s (.expr (.sequence (u.node (first.span.cover u.last)).1 (first :: more)))
      (u.node (first.span.cover u.last)).2
  | operandsEnd {s : Cursor} (hcomma : s.eat .comma = none) : Reads s (.operands []) s
  | operand {s t u v : Cursor} {h : t.left < s.left} {e : Expr} {more : List Expr}
    (hcomma : s.eat .comma = some ⟨t, h⟩) (he : Reads t (.expr e) u)
    (hmore : Reads u (.operands more) v) : Reads s (.operands (e :: more)) v
  | named {s t u v : Cursor} {h : u.left < t.left} {link : Link} {span : Span} {e : Expr}
    {optional : Bool} (he : Reads s (.expr e) t)
    (htake : t.take link? = some (link, span, ⟨u, h⟩)) (hname : (memberName u).next = v) :
    Reads s
      (.expr (.member (v.node (e.span.cover v.last)).1 e (memberName u).value false optional))
      (v.node (e.span.cover v.last)).2
  | index {s t u v w : Cursor} {opened : Span} {e key : Expr} {optional : Bool}
    (he : Reads s (.expr e) t) (hopen : Opens .index t opened u) (hkey : Reads u (.expr key) v)
    (hclose : (v.closing .bracket opened).next = w) :
    Reads s (.expr (.member (w.node (e.span.cover w.last)).1 e key true optional))
      (w.node (e.span.cover w.last)).2
  | call {s t u v w : Cursor} {opened : Span} {f : Expr} {xs : List Expr} {optional : Bool}
    (hf : Reads s (.expr f) t) (hopen : Opens .call t opened u)
    (hxs : Reads u (.items .element xs) v) (hclose : (v.closing .paren opened).next = w) :
    Reads s (.expr (.call (w.node (f.span.cover w.last)).1 f xs optional))
      (w.node (f.span.cover w.last)).2
  | elementsEnd (s : Cursor) : Reads s (.elements []) s
  | hole {s t u : Cursor} {h : t.left < s.left} {more : List (Option Expr)}
    (hcomma : s.eat .comma = some ⟨t, h⟩) (hmore : Reads t (.elements more) u) :
    Reads s (.elements (none :: more)) u
  | lastElement {s t : Cursor} {e : Expr} (he : Reads s (.item .element (some e)) t) :
    Reads s (.elements [some e]) t
  | element {s t u v : Cursor} {h : u.left < t.left} {e : Expr} {more : List (Option Expr)}
    (he : Reads s (.item .element (some e)) t) (hcomma : t.eat .comma = some ⟨u, h⟩)
    (hmore : Reads u (.elements more) v) : Reads s (.elements (some e :: more)) v
  | plain {s t : Cursor} {e : Expr} (he : Reads s (.expr e) t) :
    Reads s (.item .element (some e)) t
  | spread {s t u : Cursor} {h : t.left < s.left} {place : Place} {span : Span} {a : Expr}
    (htake : (s.take fun k => if k = .mark .ellipsis then some () else none) =
      some ((), span, ⟨t, h⟩))
    (ha : Reads t (.expr a) u) :
    Reads s (.item place (some (.spread (u.node (span.cover a.span)).1 a)))
      (u.node (span.cover a.span)).2
  | property {s t u v : Cursor} {h : t.left < s.left} {make : Node → Expr} {span : Span}
    {short : Option String} {hu : u.left < (t.node span).2.left} {value : Expr}
    (htake : s.take plainKey? = some ((make, short), span, ⟨t, h⟩))
    (hcolon : (t.node span).2.eat .colon = some ⟨u, hu⟩) (hvalue : Reads u (.expr value) v) :
    Reads s (.item .member (some (.property (v.node (s.span.cover v.last)).1
      (make (t.node span).1) value false false))) (v.node (s.span.cover v.last)).2
  | shorthand {s t u : Cursor} {h : t.left < s.left} {make : Node → Expr} {span : Span}
    {name : String} (htake : s.take plainKey? = some ((make, some name), span, ⟨t, h⟩))
    (hcolon : (t.node span).2.eat .colon = none)
    (hvalue : ((t.node span).2.node (make (t.node span).1).span).2 = u) :
    Reads s (.item .member (some (.property (u.node (s.span.cover (t.node span).2.last)).1
      (make (t.node span).1)
      (.ident ((t.node span).2.node (make (t.node span).1).span).1 name) false true)))
      (u.node (s.span.cover (t.node span).2.last)).2
  | computed {s t u v w x : Cursor} {h : t.left < s.left} {hw : w.left < v.left}
    {key value : Expr} (hopen : s.eat .lbracket = some ⟨t, h⟩) (hkey : Reads t (.expr key) u)
    (hclose : (u.closing .bracket s.span).next = v) (hcolon : v.eat .colon = some ⟨w, hw⟩)
    (hvalue : Reads w (.expr value) x) :
    Reads s (.item .member (some (.property (x.node (s.span.cover x.last)).1 key value true
      false))) (x.node (s.span.cover x.last)).2
  | noMember (s : Cursor) :
    Reads s (.item .member none) (s.complain (.expectedPropertyName s.kind))
  | noColon {s t : Cursor} {h : t.left < s.left} {make : Node → Expr} {span : Span}
    (htake : s.take plainKey? = some ((make, none), span, ⟨t, h⟩)) :
    Reads s (.item .member none) ((t.node span).2.complain .missingColon)
  | noColonComputed {s t u : Cursor} {h : t.left < s.left} {key : Expr}
    (hopen : s.eat .lbracket = some ⟨t, h⟩) (hkey : Reads t (.expr key) u) :
    Reads s (.item .member none) ((u.closing .bracket s.span).next.complain .missingColon)
  | itemsEnd (s : Cursor) (place : Place) : Reads s (.items place []) s
  | lastItem {s t : Cursor} {place : Place} {e : Expr}
    (he : Reads s (.item place (some e)) t) : Reads s (.items place [e]) t
  | item {s t u v : Cursor} {h : u.left < t.left} {place : Place} {e : Expr} {more : List Expr}
    (he : Reads s (.item place (some e)) t) (hcomma : t.eat .comma = some ⟨u, h⟩)
    (hmore : Reads u (.items place more) v) : Reads s (.items place (e :: more)) v
  | lastSkipped {s t : Cursor} {place : Place} (he : Reads s (.item place none) t) (n : Nat) :
    Reads s (.items place []) (t.skip n)
  | skipped {s t u v : Cursor} {place : Place} {n : Nat} {h : u.left < (t.skip n).left}
    {more : List Expr} (he : Reads s (.item place none) t)
    (hcomma : (t.skip n).eat .comma = some ⟨u, h⟩) (hmore : Reads u (.items place more) v) :
    Reads s (.items place more) v

/-! ## Readers -/

theorem commaList_reads {place : Place} (closing : Mark) {n : Nat}
    {item : (t : Cursor) → t.left ≤ n → Parsed (Option Expr) t}
    (hitem : ∀ t ht, Reads t (.item place (item t ht).value) (item t ht).next)
    (s : Cursor) (hs : s.left ≤ n) :
    Reads s (.items place (s.commaList closing n item hs).value)
      (s.commaList closing n item hs).next := by
  rw [commaList]
  split
  · exact .itemsEnd s place
  have h := hitem s hs
  generalize item s hs = p at h ⊢
  obtain ⟨found, s₁, h₁⟩ := p
  cases found with
  | some e =>
    simp only [Option.isSome_some, if_true, Option.toList_some] at h ⊢
    split
    · exact .lastItem h
    · rename_i s₃ h₃ heat
      have hlt : s₃.left < s.left := Nat.lt_of_lt_of_le h₃ h₁
      exact .item h heat (commaList_reads closing hitem s₃ (by omega))
  | none =>
    simp only [Option.isSome_none, Bool.false_eq_true, if_false, Option.toList_none,
      List.nil_append] at h ⊢
    have hle : (s₁.skip (runToComma closing s₁.rest)).left ≤ s.left := by
      rw [left_skip]
      omega
    split
    · exact .lastSkipped h _
    · rename_i s₃ h₃ heat
      have hlt : s₃.left < s.left := Nat.lt_of_lt_of_le h₃ hle
      exact .skipped h heat (commaList_reads closing hitem s₃ (by omega))
termination_by s.left
decreasing_by all_goals omega

mutual

theorem expression_reads (s : Cursor) : Reads s (.expr (expression s).value) (expression s).next := by
  rw [expression]
  have hfirst := assignment_reads s
  generalize assignment s = p at hfirst ⊢
  obtain ⟨first, s₁, h₁⟩ := p
  dsimp only at hfirst ⊢
  split
  · rename_i hcomma
    have hmore := commaOperands_reads s₁
    generalize commaOperands s₁ = p at hmore ⊢
    obtain ⟨more, s₂, h₂⟩ := p
    exact .sequence hfirst hcomma hmore
  · exact hfirst
termination_by 16 * s.left + 8

theorem commaOperands_reads (s : Cursor) :
    Reads s (.operands (commaOperands s).value) (commaOperands s).next := by
  rw [commaOperands]
  split
  · rename_i heat
    exact .operandsEnd heat
  · rename_i s₁ h₁ heat
    have he := assignment_reads s₁
    generalize assignment s₁ = p at he ⊢
    obtain ⟨e, s₂, h₂⟩ := p
    dsimp only at he ⊢
    have hmore := commaOperands_reads s₂
    generalize commaOperands s₂ = p at hmore ⊢
    obtain ⟨more, s₃, h₃⟩ := p
    exact .operand heat he hmore
termination_by 16 * s.left

theorem assignment_reads (s : Cursor) : Reads s (.expr (assignment s).value) (assignment s).next := by
  rw [assignment]
  have htarget := conditional_reads s
  generalize conditional s = p at htarget ⊢
  obtain ⟨target, s₁, h₁⟩ := p
  dsimp only at htarget ⊢
  split
  · exact htarget
  · rename_i op span s₂ h₂ htake
    have hs := left_checkTarget target s₂
    have hvalue := assignment_reads (checkTarget target s₂)
    generalize assignment (checkTarget target s₂) = p at hvalue ⊢
    obtain ⟨value, s₃, h₃⟩ := p
    exact .assign htarget htake hvalue
termination_by 16 * s.left + 7

theorem conditional_reads (s : Cursor) :
    Reads s (.expr (conditional s).value) (conditional s).next := by
  rw [conditional]
  have htest := infixLevel_reads 1 s
  generalize infixLevel 1 s = p at htest ⊢
  obtain ⟨test, s₁, h₁⟩ := p
  dsimp only at htest ⊢
  split
  · exact htest
  · rename_i s₂ h₂ heat
    have hconsequent := assignment_reads s₂
    generalize assignment s₂ = p at hconsequent ⊢
    obtain ⟨consequent, s₃, h₃⟩ := p
    dsimp only at hconsequent ⊢
    have hcolon := (s₃.expect (.mark .colon)).le
    have halternate := assignment_reads (s₃.expect (.mark .colon)).next
    generalize assignment (s₃.expect (.mark .colon)).next = p at halternate ⊢
    obtain ⟨alternate, s₅, h₅⟩ := p
    exact .conditional htest heat hconsequent halternate
termination_by 16 * s.left + 6

theorem infixLevel_reads (least : Nat) (s : Cursor) :
    Reads s (.expr (infixLevel least s).value) (infixLevel least s).next := by
  rw [infixLevel]
  have hleft := unary_reads s
  generalize unary s = p at hleft ⊢
  obtain ⟨left, s₁, h₁⟩ := p
  exact infixTail_reads least hleft
termination_by 16 * s.left + 5

theorem infixTail_reads (least : Nat) {start : Cursor} {left : Expr} {s : Cursor}
    (hleft : Reads start (.expr left) s) :
    Reads start (.expr (infixTail least left s).value) (infixTail least left s).next := by
  rw [infixTail]
  split
  · exact hleft
  · rename_i level op _ s₁ h₁ htake
    have hright := infixLevel_reads (rightLevel level) s₁
    generalize infixLevel (rightLevel level) s₁ = p at hright ⊢
    obtain ⟨right, s₂, h₂⟩ := p
    exact infixTail_reads least (.connective hleft htake hright)
termination_by 16 * s.left
decreasing_by all_goals try rw [left_node]
              all_goals omega

theorem unary_reads (s : Cursor) : Reads s (.expr (unary s).value) (unary s).next := by
  rw [unary]
  split
  · have he := primary_reads s
    generalize primary s = p at he ⊢
    obtain ⟨e, s₁, h₁⟩ := p
    exact links_reads false he
  · rename_i op span s₁ h₁ htake
    have hargument := unary_reads s₁
    generalize unary s₁ = p at hargument ⊢
    obtain ⟨argument, s₂, h₂⟩ := p
    exact .unary htake hargument
termination_by 16 * s.left + 4

theorem links_reads {start : Cursor} {e : Expr} (chained : Bool) {s : Cursor}
    (he : Reads start (.expr e) s) :
    Reads start (.expr (links e chained s).value) (links e chained s).next := by
  rw [links]
  split
  · exact he
  · rename_i link span s₁ h₁ htake
    cases link with
    | dot =>
      have hle := (memberName s₁).le
      exact links_reads _ (.named he htake rfl)
    | index =>
      have hle := (computedKey span s₁).le
      exact links_reads _ (computedKey_reads he (.direct htake))
    | call =>
      have hle := (arguments span s₁).le
      exact links_reads _ (arguments_reads he (.direct htake))
    | optional =>
      cases htake₂ : s₁.take link? with
      | none =>
        have hle := (memberName s₁).le
        exact links_reads _ (.named he htake rfl)
      | some found =>
        obtain ⟨link, span, s₂, h₂⟩ := found
        cases link with
        | index =>
          have hle := (computedKey span s₂).le
          exact links_reads _ (computedKey_reads he (.optional htake htake₂))
        | call =>
          have hle := (arguments span s₂).le
          exact links_reads _ (arguments_reads he (.optional htake htake₂))
        | dot | optional =>
          have hle := (memberName s₁).le
          exact links_reads _ (.named he htake rfl)
termination_by 16 * s.left
decreasing_by all_goals try simp only [left_node, Parsed.map, Parsed.weaken]
              all_goals omega

theorem computedKey_reads {start t u : Cursor} {e : Expr} {opened : Span} {optional : Bool}
    (he : Reads start (.expr e) t) (hopen : Opens .index t opened u) :
    let p := computedKey opened u
    Reads start (.expr (.member (p.next.node (e.span.cover p.next.last)).1 e p.value true optional))
      (p.next.node (e.span.cover p.next.last)).2 := by
  dsimp only
  rw [computedKey]
  have hkey := expression_reads u
  generalize expression u = p at hkey ⊢
  obtain ⟨key, s₁, h₁⟩ := p
  exact .index he hopen hkey rfl
termination_by 16 * u.left + 9

theorem arguments_reads {start t u : Cursor} {f : Expr} {opened : Span} {optional : Bool}
    (hf : Reads start (.expr f) t) (hopen : Opens .call t opened u) :
    let p := arguments opened u
    Reads start (.expr (.call (p.next.node (f.span.cover p.next.last)).1 f p.value optional))
      (p.next.node (f.span.cover p.next.last)).2 := by
  dsimp only
  rw [arguments]
  have hitem : ∀ t : Cursor, t.left ≤ u.left →
      Reads t (.item .element ((element t).map some).value) ((element t).map some).next :=
    fun t _ => element_reads t
  have hitems := commaList_reads .rparen hitem u (Nat.le_refl u.left)
  generalize u.commaList .rparen u.left (fun t _ => (element t).map some) (Nat.le_refl _) = p
    at hitems ⊢
  obtain ⟨items, s₁, h₁⟩ := p
  exact .call hf hopen hitems rfl
termination_by 16 * u.left + 9

theorem element_reads (s : Cursor) :
    Reads s (.item .element (some (element s).value)) (element s).next := by
  rw [element]
  split
  · exact .plain (assignment_reads s)
  · rename_i span s₁ h₁ htake
    have hargument := assignment_reads s₁
    generalize assignment s₁ = p at hargument ⊢
    obtain ⟨argument, s₂, h₂⟩ := p
    exact .spread htake hargument
termination_by 16 * s.left + 8

theorem primary_reads (s : Cursor) : Reads s (.expr (primary s).value) (primary s).next := by
  rw [primary]
  split
  · rename_i make span s₁ h₁ htake
    exact .atom htake
  split
  · rename_i s₁ h₁ heat
    have hinner := expression_reads s₁
    generalize expression s₁ = p at hinner ⊢
    obtain ⟨inner, s₂, h₂⟩ := p
    exact .group heat hinner
  · rename_i s₁ h₁ heat _
    have hitems := elements_reads s₁
    generalize elements s₁ = p at hitems ⊢
    obtain ⟨items, s₂, h₂⟩ := p
    exact .array heat hitems rfl
  · rename_i s₁ h₁ heat _ _
    have hitem : ∀ t : Cursor, t.left ≤ s₁.left →
        Reads t (.item .member (objectMember t).value) (objectMember t).next :=
      fun t _ => objectMember_reads t
    have hmembers := commaList_reads .rbrace hitem s₁ (Nat.le_refl s₁.left)
    generalize s₁.commaList .rbrace s₁.left (fun t _ => objectMember t) (Nat.le_refl _) = p
      at hmembers ⊢
    obtain ⟨members, s₂, h₂⟩ := p
    exact .object heat hmembers rfl
  · exact .nothing s
termination_by 16 * s.left + 3

theorem elements_reads (s : Cursor) :
    Reads s (.elements (elements s).value) (elements s).next := by
  rw [elements]
  split
  · exact .elementsEnd s
  split
  · rename_i s₁ h₁ heat
    have hmore := elements_reads s₁
    generalize elements s₁ = p at hmore ⊢
    obtain ⟨more, s₂, h₂⟩ := p
    exact .hole heat hmore
  · have he := element_reads s
    generalize element s = p at he ⊢
    obtain ⟨e, s₁, h₁⟩ := p
    dsimp only at he ⊢
    split
    · exact .lastElement he
    · rename_i s₂ h₂ heat
      have hmore := elements_reads s₂
      generalize elements s₂ = p at hmore ⊢
      obtain ⟨more, s₃, h₃⟩ := p
      exact .element he heat hmore
termination_by 16 * s.left + 9

theorem objectMember_reads (s : Cursor) :
    Reads s (.item .member (objectMember s).value) (objectMember s).next := by
  rw [objectMember]
  split
  · rename_i span s₁ h₁ htake
    have hargument := assignment_reads s₁
    generalize assignment s₁ = p at hargument ⊢
    obtain ⟨argument, s₂, h₂⟩ := p
    exact .spread htake hargument
  split
  · rename_i make short span s₁ h₁ htake
    rw [propertyValue.eq_def]
    split
    · rename_i s₃ h₃ heat
      have hvalue := assignment_reads s₃
      generalize assignment s₃ = p at hvalue ⊢
      obtain ⟨value, s₄, h₄⟩ := p
      exact .property htake heat hvalue
    · rename_i heat
      cases short with
      | some name => exact .shorthand htake heat rfl
      | none => exact .noColon htake
  split
  · rename_i s₁ h₁ heat
    rw [computedKey]
    have hkey := expression_reads s₁
    generalize expression s₁ = p at hkey ⊢
    obtain ⟨key, s₂, h₂⟩ := p
    dsimp only at hkey ⊢
    have hclose := (s₂.closing .bracket s.span).le
    rw [propertyValue.eq_def]
    split
    · rename_i s₃ h₃ hcolon
      have hvalue := assignment_reads s₃
      generalize assignment s₃ = p at hvalue ⊢
      obtain ⟨value, s₄, h₄⟩ := p
      exact .computed heat hkey rfl hcolon hvalue
    · exact .noColonComputed heat hkey
  · exact .noMember s
termination_by 16 * s.left + 9
decreasing_by all_goals try rw [left_node] at *
              all_goals omega

end

/-! ## Statements -/

/-- What is read of statements. -/
inductive StmtReading
  /-- The value that a variable is given. -/
  | value (init : Option Expr)
  | declarators (kind : VarKind) (ds : List Declarator)
  /-- One statement, unless it could not be read. -/
  | stmt (found : Option Stmt)
  | body (stmts : List Stmt)

/-- `ReadsStmt s r t`: from the cursor `s` on, up to the cursor `t`, the piece `r` of a program is
read. -/
inductive ReadsStmt : Cursor → StmtReading → Cursor → Prop
  | noValue {s : Cursor} (heq : s.eat .eq = none) : ReadsStmt s (.value none) s
  | value {s t u : Cursor} {h : t.left < s.left} {e : Expr} (heq : s.eat .eq = some ⟨t, h⟩)
    (he : Reads t (.expr e) u) : ReadsStmt s (.value (some e)) u
  | noName {s : Cursor} (kind : VarKind) (hname : s.binding = none) :
    ReadsStmt s (.declarators kind []) (s.complain (.expectedIdentifier s.kind)).toStatement
  | lastDeclarator {s t u : Cursor} {h : t.left < s.left} {kind : VarKind} {name : Name}
    {init : Option Expr} (hname : s.binding = some (name, ⟨t, h⟩))
    (hinit : ReadsStmt t (.value init) u) :
    ReadsStmt s (.declarators kind [⟨name, init, name.span.cover u.last⟩])
      (checkInitializer kind name init u).eatSemicolon
  | declarator {s t u v w : Cursor} {h : t.left < s.left} {kind : VarKind} {name : Name}
    {init : Option Expr} {hv : v.left < (checkInitializer kind name init u).left}
    {more : List Declarator} (hname : s.binding = some (name, ⟨t, h⟩))
    (hinit : ReadsStmt t (.value init) u)
    (hcomma : (checkInitializer kind name init u).eat .comma = some ⟨v, hv⟩)
    (hmore : ReadsStmt v (.declarators kind more) w) :
    ReadsStmt s (.declarators kind (⟨name, init, name.span.cover u.last⟩ :: more)) w
  | importDecl {s t u : Cursor} {h : t.left < s.left} {decl : Import}
    (hword : s.eatWord .importWord = some ⟨t, h⟩) (hdecl : (importRest t).value = some decl)
    (hnext : (importRest t).next = u) :
    ReadsStmt s (.stmt (some (.importDecl (s.span.cover u.last) decl))) u
  | noImport {s t : Cursor} {h : t.left < s.left}
    (hword : s.eatWord .importWord = some ⟨t, h⟩) (hdecl : (importRest t).value = none) :
    ReadsStmt s (.stmt none) (importRest t).next
  | declare {s t u : Cursor} {h : t.left < s.left} {kind : VarKind} {span : Span}
    {ds : List Declarator} (htake : s.take varKind? = some (kind, span, ⟨t, h⟩))
    (hds : ReadsStmt t (.declarators kind ds) u) :
    ReadsStmt s (.stmt (some (.declare (s.span.cover u.last) kind ds))) u
  | block {s t u v : Cursor} {h : t.left < s.left} {stmts : List Stmt}
    (hopen : s.eat .lbrace = some ⟨t, h⟩) (hbody : ReadsStmt t (.body stmts) u)
    (hclose : (u.closing .brace s.span).next = v) :
    ReadsStmt s (.stmt (some (.block (s.span.cover v.last) stmts))) v
  | empty {s t : Cursor} {h : t.left < s.left} (hsemicolon : s.eat .semicolon = some ⟨t, h⟩) :
    ReadsStmt s (.stmt (some (.empty (s.span.cover t.last)))) t
  | strayBrace (s : Cursor) : ReadsStmt s (.stmt none) (s.complain .unexpectedBrace)
  | expr {s t : Cursor} {e : Expr} (he : Reads s (.expr e) t) :
    ReadsStmt s (.stmt (some (.expr (s.span.cover t.eatSemicolon.last) e))) t.eatSemicolon
  | noExpr {s t : Cursor} {e : Expr} (he : Reads s (.expr e) t) : ReadsStmt s (.stmt none) t
  | bodyEnd (s : Cursor) : ReadsStmt s (.body []) s
  | stmt {s t u : Cursor} {one : Stmt} {more : List Stmt}
    (hone : ReadsStmt s (.stmt (some one)) t) (hmore : ReadsStmt t (.body more) u) :
    ReadsStmt s (.body (one :: more)) u
  | recovery {s t u : Cursor} {more : List Stmt} (hnone : ReadsStmt s (.stmt none) t)
    (hmore : ReadsStmt t.toStatement (.body more) u) : ReadsStmt s (.body more) u

theorem initializer_reads (s : Cursor) :
    ReadsStmt s (.value (initializer s).value) (initializer s).next := by
  unfold initializer
  split
  · rename_i s₁ h₁ heat
    exact .value heat (assignment_reads s₁)
  · rename_i heat
    exact .noValue heat

theorem declarators_reads (kind : VarKind) (s : Cursor) :
    ReadsStmt s (.declarators kind (declarators kind s).value) (declarators kind s).next := by
  rw [declarators]
  split
  · rename_i hname
    exact .noName kind hname
  · rename_i name s₁ h₁ hname
    have hinit := initializer_reads s₁
    generalize initializer s₁ = p at hinit ⊢
    obtain ⟨init, s₂, h₂⟩ := p
    dsimp only at hinit ⊢
    have hleft := left_checkInitializer kind name init s₂
    split
    · rename_i s₄ h₄ hcomma
      have hmore := declarators_reads kind s₄
      generalize declarators kind s₄ = p at hmore ⊢
      obtain ⟨more, s₅, h₅⟩ := p
      exact .declarator hname hinit hcomma hmore
    · exact .lastDeclarator hname hinit
termination_by s.left

theorem expressionStatement_reads (s : Cursor) :
    ReadsStmt s (.stmt (expressionStatement s).value) (expressionStatement s).next := by
  unfold expressionStatement
  have he := expression_reads s
  generalize expression s = p at he ⊢
  obtain ⟨e, s₁, h₁⟩ := p
  dsimp only at he ⊢
  split
  · exact .expr he
  · exact .noExpr he

mutual

theorem statement_reads (s : Cursor) :
    ReadsStmt s (.stmt (statement s).value) (statement s).next := by
  rw [statement]
  split
  · rename_i s₁ h₁ hword
    cases hdecl : (importRest s₁).value with
    | some decl =>
      have hread := ReadsStmt.importDecl hword hdecl rfl
      generalize importRest s₁ = p at hdecl hread ⊢
      obtain ⟨found, s₂, h₂⟩ := p
      cases hdecl
      exact hread
    | none =>
      have hread := ReadsStmt.noImport hword hdecl
      generalize importRest s₁ = p at hdecl hread ⊢
      obtain ⟨found, s₂, h₂⟩ := p
      cases hdecl
      exact hread
  · rename_i kind span s₁ h₁ htake _
    have hds := declarators_reads kind s₁
    generalize declarators kind s₁ = p at hds ⊢
    obtain ⟨ds, s₂, h₂⟩ := p
    exact .declare htake hds
  · rename_i s₁ h₁ hopen _ _
    have hbody := statements_reads true s₁
    generalize statements true s₁ = p at hbody ⊢
    obtain ⟨body, s₂, h₂⟩ := p
    exact .block hopen hbody rfl
  · rename_i s₁ h₁ hsemicolon _ _ _
    exact .empty hsemicolon
  · split
    · exact .strayBrace s
    · exact expressionStatement_reads s
termination_by 2 * s.left

theorem statements_reads (inBlock : Bool) (s : Cursor) :
    ReadsStmt s (.body (statements inBlock s).value) (statements inBlock s).next := by
  rw [statements]
  split
  · exact .bodyEnd s
  · have hone := statement_reads s
    generalize statement s = p at hone ⊢
    obtain ⟨found, s₁, h₁, hlt⟩ := p
    dsimp only at hone ⊢
    cases found with
    | some one =>
      have hlt := hlt rfl
      have hmore := statements_reads inBlock s₁
      generalize statements inBlock s₁ = p at hmore ⊢
      obtain ⟨more, s₂, h₂⟩ := p
      exact .stmt hone hmore
    | none =>
      have hlt : s₁.toStatement.left < s.left := left_toStatement_lt h₁ (by omega)
      have hmore := statements_reads inBlock s₁.toStatement
      generalize statements inBlock s₁.toStatement = p at hmore ⊢
      obtain ⟨more, s₂, h₂⟩ := p
      exact .recovery hone hmore
termination_by 2 * s.left + 1

end

end ScriptFold.Grammar
