import ScriptFold.Proofs.Evaluation.NamedParts
import ScriptFold.Proofs.Evaluation.Remembered
import ScriptFold.Proofs.Grammar.OptionalChains
import ScriptFold.Proofs.Index.Places
import ScriptFold.Proofs.Literal.Recovery

/-!
The values of optional chains.

An optional link reads its object first, and where that one is missing the link has its value and
the key is not read. So a missing object goes through all links of an optional chain. A link after
the closing parenthesis of the chain is not optional, and it cannot be read.

The keys of the links are evaluated before the expression that they are links of, the last one
first. The chain needs them to be known, but it does not need to read them.
-/

namespace ScriptFold

/-! ## Members of missing objects -/

section Missing

variable {w : Value} {o k : Reading}

theorem Value.get_of_isNullish (hw : w.isNullish) (key : String) :
    w.get key = .error (.nullish key w.toText) := by
  cases w <;> first | rfl | cases hw

/-- An optional link has the value of a missing object, whatever the key reads as. -/
theorem Reading.member_of_isNullish (ho : o = .ok w) (hw : w.isNullish) :
    Reading.member true o k = .ok w := by
  subst ho
  exact if_pos hw

theorem Reading.member_name_of_isNullish (ho : o = .ok w) (hw : w.isNullish) (name : String) :
    Reading.member false o (.ok (.string name)) = .error (.read (.nullish name w.toText)) := by
  subst ho
  show (w.get name).mapError Fault.read = _
  rw [Value.get_of_isNullish hw]
  rfl

end Missing

/-! ## Baselines -/

/-- One of the baselines that evaluators come with: what knows nothing, and what knows the constants
of the program. -/
def Baseline.IsStock (p : Program) (baseline : Baseline) : Prop :=
  baseline = .nothing ∨ baseline = .constant (.ofProgram p)

namespace Baseline.IsStock

variable {p : Program} {baseline : Baseline}

theorem member (h : baseline.IsStock p) (n : Node) (object property : Expr)
    (computed optional : Bool) : baseline (.member n object property computed optional) = none := by
  rcases h with rfl | rfl
  · rfl
  · exact constant_of_not_name rfl

theorem partName (h : baseline.IsStock p) (hp : p.Distinct) {n : Node} {x : String}
    (he : .ident n x ∈ p.nodes) (hpart : p.NamesPart (.ident n x)) :
    baseline (.ident n x) = none := by
  rcases h with rfl | rfl
  · rfl
  · have hname := (hp.isPartName_iff he).2 hpart
    have hreference : ¬ (Index.ofProgram p).isReference (.ident n x) := by
      simp [Index.isReference, hname]
    rw [constant, constantFrom, if_neg hreference]
    rfl

end Baseline.IsStock

namespace Evaluation

variable {s : Setting} {p : Program} {m m₁ : Memory} {n : Node} {b object property : Expr}
  {computed optional : Bool} {a : Answer} {x : String} {links : List ChainLink}

/-! ## What is remembered for members -/

/-- What the key of a member reads as, if it is known. -/
def keyReading? (computed : Bool) (key : Expr) (a : Answer) : Option Reading :=
  a.map Cell.reading <|> if computed then none else key.name?.map fun x => .ok (.string x)

theorem map_reading_keyOf :
    (s.keyOf computed property a).map Cell.reading = keyReading? computed property a := by
  unfold Setting.keyOf Setting.spelled keyReading?
  cases computed <;> cases a <;> simp [Setting.cell, Function.comp_def]

/-- An answer for a member follows from the answers that are remembered for its parts. -/
def FromParts (object property : Expr) (computed optional : Bool) (a : Answer) (m : Memory) :
    Prop :=
  ∃ k, m.memo.lookup property.id = some k ∧
    (keyReading? computed property k = none ∧ a = none ∨
      ∃ r o, keyReading? computed property k = some r ∧ m.memo.lookup object.id = some o ∧
        a.map Cell.reading = o.map fun o => .member optional o.reading r)

theorem FromParts.of_extends (hm : m.Extends m₁)
    (h : FromParts object property computed optional a m) :
    FromParts object property computed optional a m₁ := by
  obtain ⟨k, hk, ⟨hnone, rfl⟩ | ⟨r, o, hr, ho, hvalue⟩⟩ := h
  · exact ⟨k, hm.grows _ _ hk, .inl ⟨hnone, rfl⟩⟩
  · exact ⟨k, hm.grows _ _ hk, .inr ⟨r, o, hr, hm.grows _ _ ho, hvalue⟩⟩

theorem establishes_fromParts (hp : p.Distinct)
    (he : .member n object property computed optional ∈ p.nodes) (hs : s.baseline.IsStock p) :
    Establishes s (.member n object property computed optional)
      (FromParts object property computed optional) := by
  refine ⟨hs.member _ _ _ _ _, fun {m a m₁} hrule => ?_⟩
  obtain ⟨k, m₂, hk, ⟨hkey, rfl, rfl⟩ | ⟨key, o, hkey, ho, rfl⟩⟩ := gives_ruleBy_member.1 hrule
  · exact ⟨k, hk.remembered, .inl ⟨by rw [← map_reading_keyOf (s := s), hkey]; rfl, rfl⟩⟩
  · have hkept := extends_answer (s := s) hp
      (p.mem_nodes_of_within he (d := object) (.child (by simp [Expr.children]))) m₂
    rw [ho] at hkept
    refine ⟨k, hkept.grows _ _ hk.remembered, .inr ⟨key.reading, o, ?_, ho.remembered, ?_⟩⟩
    · rw [← map_reading_keyOf (s := s), hkey]
      rfl
    · cases o <;> rfl

/-! ## What is remembered for the links of a chain -/

theorem within_chain {links' : List ChainLink} (h : links' <:+ links) :
    (b.chain links').Within (b.chain links) := by
  induction links with
  | nil =>
    rw [List.suffix_nil.1 h]
    exact .refl
  | cons l inner ih =>
    rcases List.suffix_cons_iff.1 h with rfl | h
    · exact .refl
    · exact .step (by simp [Expr.chain, Expr.children]) (ih h)

/-- What is remembered for the links of a chain follows from what is remembered for their parts. -/
def LinksFromParts (b : Expr) (links : List ChainLink) (m : Memory) : Prop :=
  ∀ l inner, l :: inner <:+ links →
    Remembers (FromParts (b.chain inner) l.key l.computed true) (b.chain (l :: inner)) m

theorem LinksFromParts.inner {l : ChainLink} (h : LinksFromParts b (l :: links) m) :
    LinksFromParts b links m :=
  fun l' inner hsuffix => h l' inner (hsuffix.trans (List.suffix_cons l links))

theorem LinksFromParts.answer {d : Expr} (hp : p.Distinct) (hs : s.baseline.IsStock p)
    (hchain : b.chain links ∈ p.nodes) (hd : d ∈ p.nodes) (h : LinksFromParts b links m) :
    LinksFromParts b links ((answer s d).run m).2 := by
  intro l inner hsuffix
  have he := p.mem_nodes_of_within hchain (within_chain hsuffix)
  exact remembers_answer .of_extends hp he (establishes_fromParts hp he hs) hd (h l inner hsuffix)

theorem linksFromParts_afterAll (hp : p.Distinct) (hchain : b.chain links ∈ p.nodes)
    {requests : List Request} (hnodes : ∀ r ∈ requests, r.node ∈ p.nodes)
    (hstock : ∀ r ∈ requests, r.setting.baseline.IsStock p)
    (hnew : ∀ l ∈ links, m.memo.lookup l.node.id = none) :
    LinksFromParts b links (m.afterAll requests) := by
  intro l inner hsuffix
  have he := p.mem_nodes_of_within hchain (within_chain hsuffix)
  refine remembers_afterAll .of_extends hp he hnodes
    (fun r hr => establishes_fromParts hp he (hstock r hr)) (remembers_of_unknown ?_)
  exact hnew l (hsuffix.subset List.mem_cons_self)

/-- The answer for a name is known only if the variable has a value. -/
def KnownAsLocal (x : String) (a : Answer) (m : Memory) : Prop :=
  a.isSome → (m.locals.lookup x).isSome

theorem KnownAsLocal.of_extends (hm : m.Extends m₁) (h : KnownAsLocal x a m) :
    KnownAsLocal x a m₁ := fun ha => hm.locals x (h ha)

theorem establishes_knownAsLocal (hbaseline : s.baseline (.ident n x) = none) :
    Establishes s (.ident n x) (KnownAsLocal x) := by
  refine ⟨hbaseline, fun {m a m₁} hrule hknown => ?_⟩
  obtain ⟨rfl, rfl⟩ := gives_local?.1 hrule
  exact hknown

end Evaluation

namespace Evaluator

open Evaluation

variable {v : Evaluator} {p : Program} {n : Node} {b object property : Expr}
  {computed optional : Bool} {a : Answer} {c : Cell} {r : Reading} {w : Value}
  {links : List ChainLink}

theorem evaluate_member
    (hmemo : Remembers (FromParts object property computed optional)
      (.member n object property computed optional) v.memory)
    (hs : v.setting.baseline.IsStock p) (ha : (v.evaluate property).1 = .ok a)
    (hr : keyReading? computed property a = some r)
    (hc : ((v.evaluate property).2.evaluate object).1 = .ok (some c)) :
    ∃ c', (v.evaluate (.member n object property computed optional)).1 = .ok (some c') ∧
      c'.reading = .member optional c.reading r := by
  let e : Expr := .member n object property computed optional
  cases hknown : v.memory.memo.lookup e.id with
  | none =>
    rw [← map_reading_keyOf (s := v.setting)] at hr
    obtain ⟨key, hkey, rfl⟩ := Option.map_eq_some_iff.1 hr
    obtain ⟨m₁, m₂, hproperty, hobject⟩ := gives_after_asking ha hc e
    have hrule : Gives (v.memory.asking e) (ruleBy (answer v.setting) v.setting e)
        (some (v.setting.cell e (.member optional c.reading key.reading))) m₂ :=
      gives_ruleBy_member.2 ⟨a, m₁, hproperty, .inr ⟨key, some c, hkey, hobject, rfl⟩⟩
    exact ⟨_, evaluate_of_rule hknown (hs.member _ _ _ _ _) hrule, rfl⟩
  | some x =>
    obtain ⟨k, hk, hparts⟩ := hmemo x hknown
    rw [evaluate_of_known hk] at ha hc
    cases ha
    rcases hparts with ⟨hnone, -⟩ | ⟨r', o, hr', ho, hvalue⟩
    · cases hr.symm.trans hnone
    · rw [evaluate_of_known ho] at hc
      cases hc
      cases hr.symm.trans hr'
      obtain ⟨c', rfl, hreading⟩ := Option.map_eq_some_iff.1 hvalue
      exact ⟨c', congrArg Prod.fst (evaluate_of_known hknown), hreading⟩

/-- The keys of the links and then the expression before them are known, evaluated one after another
from the last key to the expression; the expression has the cell `c`. -/
def PartsKnown (b : Expr) (c : Cell) : List ChainLink → Evaluator → Prop
  | [], v => (v.evaluate b).1 = .ok (some c)
  | l :: inner, v => ∃ a, (v.evaluate l.key).1 = .ok a ∧
      (v.setting.keyOf l.computed l.key a).isSome ∧ PartsKnown b c inner (v.evaluate l.key).2

theorem evaluate_chain (hp : p.Distinct) (hs : v.setting.baseline.IsStock p)
    (hchain : b.chain links ∈ p.nodes) (hlinks : LinksFromParts b links v.memory)
    (hparts : v.PartsKnown b c links) (hc : c.reading = .ok w) (hw : w.isNullish) :
    ∃ c', (v.evaluate (b.chain links)).1 = .ok (some c') ∧ c'.reading = .ok w := by
  induction links generalizing v with
  | nil => exact ⟨c, hparts, hc⟩
  | cons l inner ih =>
    obtain ⟨a, ha, hkey, hrest⟩ := hparts
    have hinner : b.chain inner ∈ p.nodes :=
      p.mem_nodes_of_within hchain (.child (by simp [Expr.chain, Expr.children]))
    have hproperty : l.key ∈ p.nodes :=
      p.mem_nodes_of_within hchain (.child (by simp [Expr.chain, Expr.children]))
    obtain ⟨c', hc', hreading⟩ :=
      ih (v := (v.evaluate l.key).2) hs hinner (hlinks.inner.answer hp hs hinner hproperty) hrest
    obtain ⟨key, hkey⟩ := Option.isSome_iff_exists.1 hkey
    have hr : keyReading? l.computed l.key a = some key.reading := by
      rw [← map_reading_keyOf (s := v.setting), hkey]
      rfl
    obtain ⟨c'', hc'', hmember⟩ :=
      evaluate_member (hlinks l inner (List.suffix_refl _)) hs ha hr hc'
    exact ⟨c'', hc'', hmember.trans (Reading.member_of_isNullish hreading hw)⟩

theorem PartsKnown.of_sameBut {s : Setting} {K : NodeId → Prop} {m m' : Memory}
    (h : (⟨s, m⟩ : Evaluator).PartsKnown b c links) (hK : ∀ id, (b.chain links).HasId id → ¬ K id)
    (hm : SameBut K m m') : (⟨s, m'⟩ : Evaluator).PartsKnown b c links := by
  induction links generalizing m m' with
  | nil =>
    have hb : Gives m (answer s b) (some c) ((answer s b).run m).2 := Prod.ext h rfl
    obtain ⟨m₁, hb', -⟩ := hb.of_sameBut hK hm
    exact congrArg Prod.fst hb'
  | cons l inner ih =>
    obtain ⟨a, ha, hkey, hrest⟩ := h
    have hinner : (b.chain inner).Within (b.chain (l :: inner)) :=
      .child (by simp [Expr.chain, Expr.children])
    have hproperty : l.key.Within (b.chain (l :: inner)) :=
      .child (by simp [Expr.chain, Expr.children])
    have hgives : Gives m (answer s l.key) a ((answer s l.key).run m).2 := Prod.ext ha rfl
    obtain ⟨m₁, hgives', hsame⟩ := hgives.of_sameBut (fun id h => hK id (h.of_within hproperty)) hm
    have hrun : (⟨s, m'⟩ : Evaluator).evaluate l.key = (.ok a, ⟨s, m₁⟩) := by
      unfold evaluate
      rw [show (answer s l.key).run m' = (.ok a, m₁) from hgives']
    refine ⟨a, congrArg Prod.fst hrun, hkey, ?_⟩
    rw [hrun]
    exact ih hrest (fun id h => hK id (h.of_within hinner)) hsame

theorem evaluate_partName (hp : p.Distinct) (hs : v.setting.baseline.IsStock p) {n' : Node}
    {x : String} (he : .member n object (.ident n' x) false optional ∈ p.nodes)
    (hmemo : Remembers (KnownAsLocal x) (.ident n' x) v.memory)
    (hx : v.memory.locals.lookup x = none) :
    (v.evaluate (.ident n' x)).1 = .ok none ∧
      SameBut (· = n'.id) v.memory (v.evaluate (.ident n' x)).2.memory := by
  have hname := p.mem_nodes_of_within he (d := .ident n' x) (.child (by simp [Expr.children]))
  have hbaseline := hs.partName hp hname ⟨_, he, rfl⟩
  obtain ⟨a, m₁, hrun, hnew, hlocals, hothers⟩ := gives_ident (s := v.setting) n' x v.memory
  have ha : a = none := by
    cases hknown : v.memory.memo.lookup n'.id with
    | none => rw [hnew hknown hbaseline, hx]
    | some b =>
      have hrun' := run_answer_of_known (s := v.setting) (e := .ident n' x) hknown
      have hb := hmemo b hknown
      cases hrun'.symm.trans hrun
      cases a with
      | none => rfl
      | some c =>
        rw [KnownAsLocal, hx] at hb
        cases hb rfl
  have hevaluate : v.evaluate (.ident n' x) = (.ok a, ⟨v.setting, m₁⟩) := by
    unfold evaluate
    rw [show (answer v.setting (.ident n' x)).run v.memory = (.ok a, m₁) from hrun]
  rw [hevaluate, ha]
  exact ⟨rfl, hlocals.symm, fun id hid => (hothers id hid).symm⟩

/-- A name after the closing parenthesis of a chain cannot be read if the value of the chain is
missing. -/
theorem evaluate_member_of_chain (hp : p.Distinct) (hs : v.setting.baseline.IsStock p) {n' : Node}
    {x : String} (he : .member n (b.chain links) (.ident n' x) false false ∈ p.nodes)
    (hlinks : LinksFromParts b links v.memory)
    (hmemo : Remembers (FromParts (b.chain links) (.ident n' x) false false)
      (.member n (b.chain links) (.ident n' x) false false) v.memory)
    (hname : Remembers (KnownAsLocal x) (.ident n' x) v.memory)
    (hx : v.memory.locals.lookup x = none) (hparts : v.PartsKnown b c links)
    (hc : c.reading = .ok w) (hw : w.isNullish) :
    ∃ c', (v.evaluate (.member n (b.chain links) (.ident n' x) false false)).1 = .ok (some c') ∧
      c'.reading = .error (.read (.nullish x w.toText)) := by
  have hchain : b.chain links ∈ p.nodes :=
    p.mem_nodes_of_within he (.child (by simp [Expr.children]))
  have hident : .ident n' x ∈ p.nodes :=
    p.mem_nodes_of_within he (.child (by simp [Expr.children]))
  have hnone : keyReading? false (.ident n' x) none = some (.ok (.string x)) := rfl
  obtain ⟨hkey, hsame⟩ := evaluate_partName hp hs he hname hx
  -- The name is no node of the chain, so its evaluation does not matter to the chain.
  have hapart : ∀ id, (b.chain links).HasId id → id ≠ n'.id := by
    rintro _ hid rfl
    obtain ⟨hboth, -, -⟩ := List.nodup_append.1 (hp.nodup_ids he)
    obtain ⟨-, -, hne⟩ := List.nodup_append.1 hboth
    exact hne _ hid.mem_ids _ (Expr.id_mem_ids (.ident n' x)) rfl
  obtain ⟨c', hc', hreading⟩ := evaluate_chain (v := (v.evaluate (.ident n' x)).2) hp hs hchain
    (hlinks.answer hp hs hchain hident) (hparts.of_sameBut hapart hsame) hc hw
  obtain ⟨c'', hc'', hmember⟩ := evaluate_member hmemo hs hkey hnone hc'
  exact ⟨c'', hc'', hmember.trans (Reading.member_name_of_isNullish hreading hw x)⟩

/-- **Optional chains.** The words of an expression with links after it, of which the first is marked
as optional and any other one may be, are read as a chain whose links are all optional. With
parentheses around them and a name after a dot they are read as one more link, which is not optional.

An evaluator with a stock baseline remembers nothing for the links at the start and is asked for nodes
of the program, again and again. If the keys of the links and the expression are known then, and the
expression is undefined or null, the chain has this value, whatever the keys read as. In that case
the name after the closing parenthesis cannot be read, if it is no variable with a value. -/
theorem optional_chain {links : List (ChainLink × Bool)} (hne : links ≠ []) (n n' : Node)
    (x : String) :
    let chain := b.chain (links.map Prod.fst)
    let closed := Expr.member n chain (.ident n' x) false false
    (b.Grammatical → (∀ l ∈ links, l.1.Grammatical) →
      ∀ (y : Style) (tokens : List Token) (firstId : NodeId),
        let read := Grammar.wholeExpression (.ofTokens tokens firstId)
        (tokens.map Token.kind = b.chainWords y links ++ [.eof] →
          read.value.IsChain b (links.map Prod.fst) ∧ read.next.diagnostics = []) ∧
        (tokens.map Token.kind = [.mark .lparen] ++ b.chainWords y links ++ [.mark .rparen] ++
            [.mark .dot, .ofWord x] ++ [.eof] →
          (∃ node object node', read.value = .member node object (.ident node' x) false false ∧
            object.IsChain b (links.map Prod.fst)) ∧ read.next.diagnostics = [])) ∧
    (∀ (p : Program) (m : Memory) (requests : List Request) (s : Setting), p.Distinct →
      (∀ r ∈ requests, r.node ∈ p.nodes ∧ r.setting.baseline.IsStock p) → s.baseline.IsStock p →
      (∀ l ∈ links, m.memo.lookup l.1.node.id = none) →
      let v : Evaluator := ⟨s, m.afterAll requests⟩
      ∀ c w, v.PartsKnown b c (links.map Prod.fst) → c.reading = .ok w → w.isNullish →
        (chain ∈ p.nodes → ∃ c', (v.evaluate chain).1 = .ok (some c') ∧ c'.reading = .ok w) ∧
        (closed ∈ p.nodes → m.memo.lookup n.id = none → m.memo.lookup n'.id = none →
          v.memory.locals.lookup x = none → ∃ c', (v.evaluate closed).1 = .ok (some c') ∧
            c'.reading = .error (.read (.nullish x w.toText)))) := by
  intro chain closed
  refine ⟨fun hb hlinks y tokens firstId => ⟨fun htokens => ?_, fun htokens => ?_⟩, ?_⟩
  · exact Grammar.wholeExpression_chain hb hlinks hne htokens firstId
  · exact Grammar.wholeExpression_member_of_chain hb hlinks hne htokens firstId
  intro p m requests s hp hrequests hs hnew v c w hparts hc hw
  have hnodes := fun r hr => (hrequests r hr).1
  have hstock := fun r hr => (hrequests r hr).2
  have hlinks (hchain : chain ∈ p.nodes) :
      LinksFromParts b (links.map Prod.fst) (m.afterAll requests) := by
    refine linksFromParts_afterAll hp hchain hnodes hstock fun l hl => ?_
    obtain ⟨marked, hmarked, rfl⟩ := List.mem_map.1 hl
    exact hnew marked hmarked
  refine ⟨fun hchain => evaluate_chain hp hs hchain (hlinks hchain) hparts hc hw, ?_⟩
  intro hclosed hnewMember hnewName hx
  have hchain : chain ∈ p.nodes :=
    p.mem_nodes_of_within hclosed (.child (by simp [closed, Expr.children]))
  have hident : .ident n' x ∈ p.nodes :=
    p.mem_nodes_of_within hclosed (.child (by simp [closed, Expr.children]))
  refine evaluate_member_of_chain hp hs hclosed (hlinks hchain) ?_ ?_ hx hparts hc hw
  · exact remembers_afterAll .of_extends hp hclosed hnodes
      (fun r hr => establishes_fromParts hp hclosed (hstock r hr)) (remembers_of_unknown hnewMember)
  · refine remembers_afterAll .of_extends hp hident hnodes (fun r hr => ?_)
      (remembers_of_unknown hnewName)
    exact establishes_knownAsLocal ((hstock r hr).partName hp hident ⟨_, hclosed, rfl⟩)

def linksOfNull : List (ChainLink × Bool) :=
  [(⟨⟨6, .nowhere⟩, .ident ⟨5, .nowhere⟩ "b", false⟩, false),
    (⟨⟨4, .nowhere⟩, .member ⟨3, .nowhere⟩ (.null ⟨1, .nowhere⟩) (.ident ⟨2, .nowhere⟩ "a") false
      false, true⟩, false)]

theorem grammatical_linksOfNull :
    (Expr.null ⟨0, .nowhere⟩).Grammatical ∧ ∀ l ∈ linksOfNull, l.1.Grammatical := by
  have hnull (n : Node) : (Expr.null n).Everywhere Expr.Sayable :=
    Expr.everywhere_of_leaf (Expr.sayable_of_leaf trivial rfl) rfl
  have hname (n : Node) (x : String) : (Expr.ident n x).Everywhere Expr.Sayable :=
    Expr.everywhere_of_leaf (Expr.sayable_of_leaf trivial rfl) rfl
  have hkey : (Expr.member ⟨3, .nowhere⟩ (.null ⟨1, .nowhere⟩) (.ident ⟨2, .nowhere⟩ "a") false
      false).Everywhere Expr.Sayable := by
    refine Expr.everywhere_of ⟨⟨rfl, rfl⟩, ?_⟩ ?_
    · simp [Expr.values, Expr.HasFreeName, Expr.name?]
    · simpa [Expr.children] using ⟨hnull _, hname _ _⟩
  have hlink : Expr.Grammatical _ := ⟨rfl, by rintro x ⟨⟩, hkey⟩
  exact ⟨⟨rfl, by rintro x ⟨⟩, hnull _⟩,
    List.forall_mem_cons.2 ⟨rfl, List.forall_mem_cons.2 ⟨hlink, List.forall_mem_nil _⟩⟩⟩

/-- The value of `null?.[null.a].b` is null though `null.a` cannot be read, and `k` cannot be read
after `(null?.[null.a].b)`; so it is when they are evaluated for the first time and again. -/
theorem optional_chain_of_null :
    let b : Expr := .null ⟨0, .nowhere⟩
    let chain := b.chain (linksOfNull.map Prod.fst)
    let closed : Expr := .member ⟨8, .nowhere⟩ chain (.ident ⟨7, .nowhere⟩ "k") false false
    let words := b.chainWords ⟨fun _ => false, fun _ => false⟩ linksOfNull
    let tokens (ks : List TokenKind) : List Token :=
      (ks ++ [TokenKind.eof]).map fun k => ⟨k, .nowhere⟩
    let s : Setting := ⟨⟨[], []⟩, .nothing, none, 0⟩
    words = [.keyword .nullWord, .mark .questionDot, .mark .lbracket, .keyword .nullWord,
      .mark .dot, .ident "a", .mark .rbracket, .mark .dot, .ident "b"] ∧
    (Grammar.wholeExpression (.ofTokens (tokens words) 0)).value.IsChain b
      (linksOfNull.map Prod.fst) ∧
    (∃ n o m, (Grammar.wholeExpression (.ofTokens (tokens ([.mark .lparen] ++ words ++
        [.mark .rparen] ++ [.mark .dot, .ofWord "k"])) 0)).value =
          .member n o (.ident m "k") false false ∧ o.IsChain b (linksOfNull.map Prod.fst)) ∧
    ∀ requests ∈ [[], [⟨s, closed⟩]],
      let v : Evaluator := ⟨s, Memory.empty.afterAll requests⟩
      (∃ c, (v.evaluate chain).1 = .ok (some c) ∧ c.reading = .ok .null) ∧
      ∃ c, (v.evaluate closed).1 = .ok (some c) ∧
        c.reading = .error (.read (.nullish "k" "null")) := by
  intro b chain closed words tokens s
  obtain ⟨hb, hlinks⟩ := grammatical_linksOfNull
  have hne : linksOfNull ≠ [] := List.cons_ne_nil _ _
  obtain ⟨hreads, hvalues⟩ := optional_chain (b := b) hne ⟨8, .nowhere⟩ ⟨7, .nowhere⟩ "k"
  have hread := hreads hb hlinks ⟨fun _ => false, fun _ => false⟩
  have hkinds (ks : List TokenKind) : (tokens ks).map Token.kind = ks ++ [.eof] := by
    simp [tokens, Function.comp_def]
  have hp : (Program.ofExpr closed).Distinct := by decide
  have hclosed : closed ∈ (Program.ofExpr closed).nodes := Program.mem_nodes_ofExpr.2 .refl
  have hchain : chain ∈ (Program.ofExpr closed).nodes :=
    Program.mem_nodes_ofExpr.2 (.child (by simp [closed, Expr.children]))
  refine ⟨rfl, ((hread _ 0).1 (hkinds _)).1, ((hread _ 0).2 (hkinds _)).1,
    fun requests hrequests => ?_⟩
  have hall : ∀ r ∈ requests, r.node ∈ (Program.ofExpr closed).nodes ∧
      r.setting.baseline.IsStock (.ofExpr closed) := by
    rcases List.mem_pair.1 hrequests with rfl | rfl
    · exact List.forall_mem_nil _
    · exact fun r hr => List.mem_singleton.1 hr ▸ ⟨hclosed, .inl rfl⟩
  have hparts : PartsKnown b ⟨.node 0 0, .ok .null⟩ (linksOfNull.map Prod.fst)
      ⟨s, Memory.empty.afterAll requests⟩ := by
    rcases List.mem_pair.1 hrequests with rfl | rfl <;> exact ⟨_, rfl, rfl, _, rfl, rfl, rfl⟩
  have hlocal : (Memory.empty.afterAll requests).locals.lookup "k" = none := by
    rcases List.mem_pair.1 hrequests with rfl | rfl <;> rfl
  obtain ⟨hvalue, hfault⟩ := hvalues _ .empty requests s hp hall (.inl rfl) (fun _ _ => rfl) _ _
    hparts rfl rfl
  exact ⟨hvalue hchain, hfault hclosed rfl rfl hlocal⟩

end Evaluator

end ScriptFold
