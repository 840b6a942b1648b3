import ScriptFold.Proofs.Evaluation.KnownResults

/-!
A known answer stays when more is known.

Two evaluations of one node run side by side, the second one with more variables and perhaps with
a build that answers macro calls. As long as the first one gets known answers, the second one gets
the same. A name of a part may be unknown to both, so no variable that only the second one has may
have such a name.
-/

namespace ScriptFold.Evaluation

variable {α β : Type} {s : Setting} {context : Option Context} {D : String → Prop}
  {m m' n : Memory}

/-- The memory `n` remembers the same answers as `m` and knows at least its variables, but none
more with a name in `D`. -/
structure Extends (D : String → Prop) (m n : Memory) : Prop where
  memo : n.memo = m.memo
  kept : ∀ x c, m.locals.lookup x = some c → n.locals.lookup x = some c
  same : ∀ x, D x → n.locals.lookup x = m.locals.lookup x

namespace Extends

theorem asking (h : Extends D m n) (e : Expr) : Extends D (m.asking e) (n.asking e) :=
  ⟨h.memo, h.kept, h.same⟩

theorem knowing (h : Extends D m n) (e : Expr) (a : Answer) :
    Extends D (m.knowing e a) (n.knowing e a) :=
  ⟨by rw [Memory.memo_knowing, Memory.memo_knowing, h.memo], h.kept, h.same⟩

theorem assigned (h : Extends D m n) (name : String) (a : Answer) :
    Extends D (m.assigned name a) (n.assigned name a) where
  memo := by rw [Memory.memo_assigned, Memory.memo_assigned, h.memo]
  kept x c hx := by
    rw [Memory.lookup_locals_assigned] at hx ⊢
    by_cases hname : x = name ∧ a.isSome
    · rw [if_pos hname] at hx ⊢
      exact hx
    · rw [if_neg hname] at hx ⊢
      exact h.kept x c hx
  same x hx := by rw [Memory.lookup_locals_assigned, Memory.lookup_locals_assigned, h.same x hx]

end Extends

/-! ## Computations side by side -/

/-- Where `x` gives `a`, so does `y` from a memory that extends the one of `x`. -/
def Matches (D : String → Prop) (a : Option α) (x y : Evaluation (Option α)) : Prop :=
  ∀ ⦃m n m'⦄, Extends D m n → Gives m x a m' → ∃ n', Gives n y a n' ∧ Extends D m' n'

/-- What `x` gives as known, so does `y`. -/
def Lockstep (D : String → Prop) (x y : Evaluation (Option α)) : Prop :=
  ∀ a, Matches D (some a) x y

theorem matches_pure {a b : Option α} : Matches D b (pure a) (pure a) := by
  intro m n m' hmn h
  obtain ⟨rfl, rfl⟩ := gives_pure.1 h
  exact ⟨n, gives_pure.2 ⟨rfl, rfl⟩, hmn⟩

theorem matches_bind {γ : Type} {x y : Evaluation (Option α)}
    {f g : Option α → Evaluation (Option γ)} {c : Option γ}
    (h : ∀ a, (∃ m m', Gives m (f a) c m') → Matches D a x y ∧ Matches D c (f a) (g a)) :
    Matches D c (x >>= f) (y >>= g) := by
  intro m n m' hmn hc
  obtain ⟨a, m₁, ha, hc⟩ := gives_bind.1 hc
  obtain ⟨hxy, hfg⟩ := h a ⟨m₁, m', hc⟩
  obtain ⟨n₁, ha', hmn₁⟩ := hxy hmn ha
  obtain ⟨n', hc', hmn'⟩ := hfg hmn₁ hc
  exact ⟨n', gives_bind.2 ⟨a, n₁, ha', hc'⟩, hmn'⟩

theorem lockstep_pure {a : Option α} : Lockstep D (pure a) (pure a) := fun _ => matches_pure

theorem lockstep_none {y : Evaluation (Option α)} : Lockstep D (pure none) y := by
  intro a m n m' hmn h
  obtain ⟨⟨⟩, _⟩ := gives_pure.1 h

theorem lockstep_local? {name : String} : Lockstep D (local? name) (local? name) := by
  intro a m n m' hmn h
  obtain ⟨ha, rfl⟩ := gives_local?.1 h
  exact ⟨n, gives_local?.2 ⟨hmn.kept name a ha, rfl⟩, hmn⟩

theorem lockstep_known {x y : Evaluation (Option α)} {f g : Option α → Evaluation (Option β)}
    (hxy : Lockstep D x y) (hnone : f none = pure none)
    (hfg : ∀ a, Lockstep D (f (some a)) (g (some a))) : Lockstep D (x >>= f) (y >>= g) := by
  intro b
  refine matches_bind fun a => ?_
  cases a with
  | none =>
    rintro ⟨m, m', h⟩
    rw [hnone] at h
    obtain ⟨⟨⟩, _⟩ := gives_pure.1 h
  | some a => exact fun _ => ⟨hxy a, hfg a b⟩

theorem lockstep_read {t : Cell} {f g : Value → Evaluation (Option α)}
    (hfg : ∀ v, Lockstep D (f v) (g v)) : Lockstep D (read t >>= f) (read t >>= g) := by
  intro a m n m' hmn h
  obtain ⟨v, m₁, hv, h⟩ := gives_bind.1 h
  obtain ⟨hread, rfl⟩ := gives_read.1 hv
  obtain ⟨n', h', hmn'⟩ := hfg v a hmn h
  exact ⟨n', gives_bind.2 ⟨v, n, gives_read.2 ⟨hread, rfl⟩, h'⟩, hmn'⟩

theorem lockstep_assign {x y : Evaluation Answer} {name : String} (hxy : Lockstep D x y) :
    Lockstep D (do let a ← x
                   assign name a
                   return a)
      (do let a ← y
          assign name a
          return a) := by
  intro c m n m' hmn h
  obtain ⟨a, m₁, ha, h⟩ := gives_bind.1 h
  obtain ⟨_, m₂, hu, h⟩ := gives_bind.1 h
  obtain ⟨rfl, rfl⟩ := gives_pure.1 h
  obtain rfl := gives_assign.1 hu
  obtain ⟨n₁, ha', hmn₁⟩ := hxy c hmn ha
  refine ⟨n₁.assigned name (some c), ?_, hmn₁.assigned name (some c)⟩
  refine gives_bind.2 ⟨_, n₁, ha', gives_bind.2 ⟨(), _, gives_assign.2 rfl, ?_⟩⟩
  exact gives_pure.2 ⟨rfl, rfl⟩

theorem matches_once {e : Expr} {x y : Evaluation Answer} {a : Answer} (hxy : Matches D a x y) :
    Matches D a (once s e x) (once { s with context := context } e y) := by
  intro m n m' hmn h
  rcases gives_once.1 h with ⟨hm, rfl⟩ | ⟨hm, m₁, hf, rfl⟩
  · exact ⟨n, gives_once.2 (.inl ⟨by rw [hmn.memo, hm], rfl⟩), hmn⟩
  have hfresh : Matches D a (fresh s e x) (fresh { s with context := context } e y) := by
    unfold fresh
    dsimp only
    cases s.baseline e with
    | some reading => exact matches_pure
    | none => exact hxy
  obtain ⟨n₁, hf', hmn₁⟩ := hfresh (hmn.asking e) hf
  exact ⟨n₁.knowing e a, gives_once.2 (.inr ⟨by rw [hmn.memo, hm], n₁, hf', rfl⟩),
    hmn₁.knowing e a⟩

theorem lockstep_once {e : Expr} {x y : Evaluation Answer} (hxy : Lockstep D x y) :
    Lockstep D (once s e x) (once { s with context := context } e y) :=
  fun a => matches_once (hxy a)

/-- Without a context no call has a known answer. -/
theorem lockstep_call {e callee : Expr} {y : Evaluation Answer} (hs : s.context = none) :
    Lockstep D (call s e callee) y := by
  unfold call
  rw [hs]
  exact lockstep_none

theorem matches_ident {k : Node} {name : String} {a : Answer} (hD : D name) :
    Matches D a (answer s (.ident k name))
      (answer { s with context := context } (.ident k name)) := by
  simp only [answer]
  refine matches_once fun m n m' hmn h => ?_
  obtain ⟨ha, rfl⟩ := gives_local?.1 h
  exact ⟨n, gives_local?.2 ⟨(hmn.same name hD).trans ha, rfl⟩, hmn⟩

theorem matches_key {e : Expr} (computed : Bool) {a : Answer} {c : Cell}
    (hD : computed = false → ∀ name, e.name? = some name → D name)
    (he : Lockstep D (answer s e) (answer { s with context := context } e))
    (hkey : s.keyOf computed e a = some c) :
    Matches D a (answer s e) (answer { s with context := context } e) := by
  cases a with
  | some a => exact he a
  | none =>
    cases computed with
    | true => cases hkey
    | false =>
      cases e with
      | ident k name => exact matches_ident (hD rfl name rfl)
      | _ => cases hkey

/-! ## All steps -/

theorem lockstep_both {γ : Type} (f : α → β → γ) {x y : Evaluation (Option α)}
    {x' y' : Evaluation (Option β)} (h : Lockstep D x y) (h' : Lockstep D x' y') :
    Lockstep D (do let a ← x
                   let b ← x'
                   return do return f (← a) (← b))
      (do let a ← y
          let b ← y'
          return do return f (← a) (← b)) := by
  refine fun c => matches_bind fun a ⟨m₁, m', hc⟩ => ?_
  obtain ⟨b, m₂, _, hc⟩ := gives_bind.1 hc
  obtain ⟨hc, rfl⟩ := gives_pure.1 hc
  cases a with
  | none => cases hc
  | some a =>
    refine ⟨h a, matches_bind fun b ⟨m₁, m', hc⟩ => ?_⟩
    obtain ⟨hc, rfl⟩ := gives_pure.1 hc
    cases b with
    | none => cases hc
    | some b => exact ⟨h' b, matches_pure⟩

theorem transfers_lockstep {whole : Expr} (hs : s.context = none)
    (hD : ∀ k : Expr, k.NamesPartIn whole → ∀ name, k.name? = some name → D name) :
    Transfers s context whole fun _ => Lockstep D where
  pure _ := lockstep_pure
  ident _ := lockstep_local?
  call _ _ := lockstep_call hs
  unknown _ a m n m' _ h := by
    obtain ⟨_, m₁, _, h⟩ := gives_bind.1 h
    obtain ⟨⟨⟩, _⟩ := gives_pure.1 h
  known h hf _ hfg := lockstep_known h hf hfg
  both f _ _ _ _ h h' := lockstep_both f h h'
  read h := lockstep_read h
  assign name h := lockstep_assign h
  key computed k hname h c := by
    refine matches_bind fun a ⟨m₁, m', hc⟩ => ?_
    obtain ⟨hkey, rfl⟩ := gives_pure.1 hc
    refine ⟨matches_key computed (fun hcomputed name hn => ?_) h hkey, matches_pure⟩
    exact hD k (hname hcomputed (by rw [hn]; rfl)) name hn
  once e h := lockstep_once h

/-- What is known of a node without a context is known with more variables and a context. -/
theorem lockstep_answer (hs : s.context = none) (e : Expr)
    (hD : ∀ k : Expr, k.NamesPartIn e → ∀ name, k.name? = some name → D name) :
    Lockstep D (answer s e) (answer { s with context := context } e) :=
  (transfers_lockstep hs hD).answer e .refl

end ScriptFold.Evaluation

namespace ScriptFold.Evaluator

/-- **More knowledge never changes a known answer.** What is known without a context and with some
variables is the same with any context and with more variables, as long as none of these has the
name of a part. -/
theorem evaluate_eq_of_more {s : Setting} {context : Option Context} {e : Expr} {c : Cell}
    {locals more : List (String × Cell)}
    (hmore : ∀ x c, locals.lookup x = some c → more.lookup x = some c)
    (hparts : ∀ k : Expr, k.NamesPartIn e → ∀ x, k.name? = some x → locals.lookup x = none →
      more.lookup x = none)
    (h : ((⟨{ s with context := none }, ⟨[], locals, []⟩⟩ : Evaluator).evaluate e).1 =
      .ok (some c)) :
    ((⟨{ s with context := context }, ⟨[], more, []⟩⟩ : Evaluator).evaluate e).1 =
      .ok (some c) := by
  let D : String → Prop := fun x => ∃ k : Expr, k.NamesPartIn e ∧ k.name? = some x
  have hextends : Evaluation.Extends D ⟨[], locals, []⟩ ⟨[], more, []⟩ := by
    refine ⟨rfl, hmore, ?_⟩
    rintro x ⟨k, hk, hx⟩
    cases hl : locals.lookup x with
    | some c => exact hmore x c hl
    | none => exact hparts k hk x hx hl
  have hlockstep : Evaluation.Lockstep D (Evaluation.answer { s with context := none } e)
      (Evaluation.answer { s with context := context } e) :=
    Evaluation.lockstep_answer (s := { s with context := none }) rfl e
      fun k hk x hx => ⟨k, hk, hx⟩
  obtain ⟨n', hn', -⟩ := hlockstep c hextends (Prod.ext h rfl)
  exact congrArg Prod.fst hn'

/-- The value of `{ a: x }` with `x` known stays when `y` is known too and calls are answered. -/
theorem evaluate_object_eq_of_more :
    let s : Setting := ⟨⟨[], []⟩, .nothing, none, 0⟩
    let context : Context := ⟨⟨⟨none, [], [], [], [], []⟩, "app.js", []⟩, Build.handlers⟩
    let e : Expr := .object ⟨0, .nowhere⟩
      [.property ⟨1, .nowhere⟩ (.ident ⟨2, .nowhere⟩ "a") (.ident ⟨3, .nowhere⟩ "x") false false]
    let x : Cell := ⟨.given 0, .ok .null⟩
    let y : Cell := ⟨.given 1, .ok .undefined⟩
    ∃ c, ((⟨{ s with context := some context }, ⟨[], [("x", x), ("y", y)], []⟩⟩ : Evaluator).evaluate
      e).1 = .ok (some c) := by
  intro s context e x y
  have hknown : ((⟨s, ⟨[], [("x", x)], []⟩⟩ : Evaluator).evaluate e).1 =
      .ok (some ⟨.node 0 0, _⟩) := rfl
  refine ⟨_, evaluate_eq_of_more ?_ ?_ hknown⟩
  · intro name c h
    rw [List.lookup_cons] at h ⊢
    split at h
    · exact h
    · cases h
  · rintro k ⟨-, n, hn, hp⟩ name hname -
    have hk : k = .ident ⟨2, .nowhere⟩ "a" := by
      cases hn with
      | refl => cases hp
      | step hb hn =>
        obtain rfl := List.mem_singleton.1 hb
        cases hn with
        | refl => cases hp; rfl
        | step hb hn =>
          obtain rfl | rfl : _ = _ ∨ _ = _ := by simpa [Expr.children] using hb
          · obtain rfl := hn.eq_of_leaf rfl
            cases hp
          · obtain rfl := hn.eq_of_leaf rfl
            cases hp
    subst hk
    cases hname
    decide

end ScriptFold.Evaluator
