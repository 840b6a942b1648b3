import ScriptFold.Proofs.Expr.WellFormed
import ScriptFold.Proofs.Grammar.Motion

/-!
What stands between two cursors.

A span stands between two cursors if it starts where one of the tokens in between starts and ends
where one of them ends. What is read later stands after what was read before. So a span from the
first part of a node to its last part, or to the token read last, contains the spans of all parts,
also where tokens that leave no node stand around some of them.

`Lays` speaks of the way between the cursors and of what stands there at once, so that readings are
put together as ways are.
-/

namespace ScriptFold

/-! ## Cursors in a row of tokens -/

namespace Cursor

/-- The tokens still to be read are not empty, stand one after another, and stand after the token
read last. -/
structure Steady (s : Cursor) : Prop where
  nonempty : ∀ k ∈ s.rest, k.span.start < k.span.stop
  ordered : s.rest.Pairwise fun k l => k.span.stop ≤ l.span.start
  past : ∀ k ∈ s.rest, s.last.stop ≤ k.span.start

section Ways

variable {s t : Cursor}

theorem LeadsTo.mem (h : s.LeadsTo t) {k : Token} (hk : k ∈ t.rest) : k ∈ s.rest := by
  obtain ⟨passed, h⟩ := h
  rw [h.rest]
  exact List.mem_append_right _ hk

theorem LeadsTo.last_le (h : s.LeadsTo t) (hs : s.Steady) : s.last.stop ≤ t.last.stop := by
  obtain ⟨passed, h⟩ := h
  rw [h.last]
  cases hlast : passed.getLast? with
  | none => exact Nat.le_refl _
  | some k =>
    have hk : k ∈ s.rest := by
      rw [h.rest]
      exact List.mem_append_left _ (List.mem_of_getLast? hlast)
    exact Nat.le_trans (hs.past k hk) (Nat.le_of_lt (hs.nonempty k hk))

theorem LeadsTo.steady (h : s.LeadsTo t) (hs : s.Steady) : t.Steady := by
  have hmem (k : Token) (hk : k ∈ t.rest) : k ∈ s.rest := h.mem hk
  obtain ⟨passed, h⟩ := h
  have hordered := hs.ordered
  rw [h.rest, List.pairwise_append] at hordered
  obtain ⟨-, hrest, hacross⟩ := hordered
  refine ⟨fun k hk => hs.nonempty k (hmem k hk), hrest, fun k hk => ?_⟩
  rw [h.last]
  cases hlast : passed.getLast? with
  | none => exact hs.past k (hmem k hk)
  | some l => exact hacross l (List.mem_of_getLast? hlast) k hk

theorem leadsTo_closing {d : Delimiter} {opened : Span} (h : (s.closing d opened).next = t) :
    s.LeadsTo t := h ▸ (s.spells_closing d opened).leadsTo

end Ways

end Cursor

open Cursor

/-! ## Spans between cursors -/

/-- The span starts with a token that is still to be read at `s`, ends with such a token, and ends
before the cursor `t`. -/
structure Span.Between (span : Span) (s t : Cursor) : Prop where
  nonempty : span.start < span.stop
  start : ∃ k ∈ s.rest, k.span.start = span.start
  stop : ∃ k ∈ s.rest, k.span.stop = span.stop
  before : span.stop ≤ t.last.stop

namespace Span.Between

variable {a b : Span} {s t u v : Cursor}

theorem sooner (h : a.Between t u) (hst : s.LeadsTo t) : a.Between s u :=
  { h with
    start := h.start.imp fun _ hk => ⟨hst.mem hk.1, hk.2⟩
    stop := h.stop.imp fun _ hk => ⟨hst.mem hk.1, hk.2⟩ }

theorem later (h : a.Between s t) (htu : t.LeadsTo u) (ht : t.Steady) : a.Between s u :=
  { h with before := Nat.le_trans h.before (htu.last_le ht) }

theorem last_le (h : a.Between s t) (hs : s.Steady) : s.last.stop ≤ a.start := by
  obtain ⟨k, hk, hstart⟩ := h.start
  rw [← hstart]
  exact hs.past k hk

/-- The next token starts no later than all spans after the cursor. -/
theorem span_start_le (h : a.Between s t) (hs : s.Steady) : s.span.start ≤ a.start := by
  obtain ⟨k, hk, hstart⟩ := h.start
  have hnonempty := hs.nonempty
  have hordered := hs.ordered
  rw [← hstart, Cursor.span]
  cases hrest : s.rest with
  | nil =>
    rw [hrest] at hk
    cases hk
  | cons first rest =>
    rw [hrest] at hk hordered hnonempty
    dsimp only
    rcases List.mem_cons.1 hk with rfl | hk
    · exact Nat.le_refl _
    · have hfirst := hnonempty first List.mem_cons_self
      have hafter := (List.pairwise_cons.1 hordered).1 k hk
      omega

theorem last (h : a.Between s t) (hst : s.LeadsTo t) (hs : s.Steady) : t.last.Between s t := by
  have hafter := h.last_le hs
  obtain ⟨passed, hmoves⟩ := hst
  have hlast := hmoves.last
  cases hk : passed.getLast? with
  | none =>
    -- Without a token read in between, the span would end before it starts.
    have hbefore := h.before
    have hnonempty := h.nonempty
    rw [hlast, hk, Option.map_none, Option.getD_none] at hbefore
    omega
  | some k =>
    have hmem : k ∈ s.rest := by
      rw [hmoves.rest]
      exact List.mem_append_left _ (List.mem_of_getLast? hk)
    rw [hk, Option.map_some, Option.getD_some] at hlast
    refine ⟨?_, ⟨k, hmem, by rw [hlast]⟩, ⟨k, hmem, by rw [hlast]⟩, Nat.le_refl _⟩
    rw [hlast]
    exact hs.nonempty k hmem

theorem cover (ha : a.Between s t) (hb : b.Between s t) : (a.cover b).Between s t where
  nonempty := by
    have hnonempty := ha.nonempty
    simp only [Span.cover]
    omega
  start := by
    rcases Nat.le_total a.start b.start with hle | hle
    · rw [Span.cover, Nat.min_eq_left hle]
      exact ha.start
    · rw [Span.cover, Nat.min_eq_right hle]
      exact hb.start
  stop := by
    rcases Nat.le_total a.stop b.stop with hle | hle
    · rw [Span.cover, Nat.max_eq_right hle]
      exact hb.stop
    · rw [Span.cover, Nat.max_eq_left hle]
      exact ha.stop
  before := Nat.max_le.2 ⟨ha.before, hb.before⟩

/-- What is read later stands after what was read before. -/
theorem stop_le_start (ha : a.Between s t) (htu : t.LeadsTo u) (hb : b.Between u v)
    (ht : t.Steady) : a.stop ≤ b.start := by
  have hu := htu.steady ht
  exact Nat.le_trans ha.before (Nat.le_trans (htu.last_le ht) (hb.last_le hu))

end Span.Between

theorem Span.contains_cover_iff {a b c : Span} : (a.cover b).contains c = true ↔
    (a.start ≤ c.start ∨ b.start ≤ c.start) ∧ (c.stop ≤ a.stop ∨ c.stop ≤ b.stop) := by
  rw [Span.contains, Bool.and_eq_true, decide_eq_true_eq, decide_eq_true_eq]
  simp only [Span.cover]
  omega

/-- The span from the next token to the token read last contains all that stands in between. -/
theorem Span.Between.in_cover {a : Span} {s t : Cursor} (h : a.Between s t) (hs : s.Steady) :
    (s.span.cover t.last).contains a = true :=
  Span.contains_cover_iff.2 ⟨.inl (h.span_start_le hs), .inr h.before⟩

/-- A token stands between the cursors before and after it. -/
theorem between_token {s t : Cursor} {k : Token} (h : s.Moves [k] t) (hs : s.Steady) :
    s.span = k.span ∧ k.span.Between s t := by
  have hmem : k ∈ s.rest := by
    rw [h.rest]
    exact List.mem_append_left _ List.mem_cons_self
  refine ⟨?_, hs.nonempty k hmem, ⟨k, hmem, rfl⟩, ⟨k, hmem, rfl⟩, Nat.le_of_eq ?_⟩
  · rw [Cursor.span, h.rest]
    rfl
  · rw [h.last]
    rfl

/-! ## Nodes between cursors -/

namespace Expr

/-- There is no invalid node in the tree. -/
def Intact (e : Expr) : Prop := e.Everywhere fun d => ∀ n, d ≠ .invalid n

theorem intact_of_wellFormed {e : Expr} (h : e.WellFormed) : e.Intact := by
  rintro d hd n rfl
  exact (h.2 _ hd).1

def Laid (s t : Cursor) (e : Expr) : Prop :=
  e.Everywhere fun d => d.span.Between s t ∧ ∀ c ∈ d.children, d.span.contains c.span = true

/-- Those of some trees that have no invalid node stand between two cursors. -/
def AllLaid (s t : Cursor) (es : List Expr) : Prop := ∀ e ∈ es, e.Intact → e.Laid s t

section Laid

variable {e l r : Expr} {es fs : List Expr} {s t u v : Cursor}

theorem Laid.between (h : e.Laid s t) : e.span.Between s t := h.self.1

theorem Laid.sooner (h : e.Laid t u) (hst : s.LeadsTo t) : e.Laid s u :=
  fun d hd => ⟨(h d hd).1.sooner hst, (h d hd).2⟩

theorem Laid.later (h : e.Laid s t) (htu : t.LeadsTo u) (ht : t.Steady) : e.Laid s u :=
  fun d hd => ⟨(h d hd).1.later htu ht, (h d hd).2⟩

theorem laid_leaf (h : e.span.Between s t) (hleaf : e.children = []) : e.Laid s t :=
  everywhere_of ⟨h, by simp [hleaf]⟩ (by simp [hleaf])

/-- The cursor `t` is ahead of `s`, and those of some trees that have no invalid node stand between
them. -/
structure Lays (s t : Cursor) (es : List Expr) : Prop where
  leadsTo : s.LeadsTo t
  laid (hs : s.Steady) : AllLaid s t es

theorem Lays.nothing (h : s.LeadsTo t) : Lays s t [] where
  leadsTo := h
  laid _ _ he := absurd he List.not_mem_nil

theorem Lays.single (h : s.LeadsTo t) (he : s.Steady → e.Intact → e.Laid s t) : Lays s t [e] where
  leadsTo := h
  laid hs := List.forall_mem_singleton.2 (he hs)

theorem Lays.only (h : Lays s t [e]) (hs : s.Steady) (hintact : e.Intact) : e.Laid s t :=
  h.laid hs e List.mem_cons_self hintact

theorem Lays.sooner (h : Lays t u es) (hst : s.LeadsTo t) : Lays s u es where
  leadsTo := hst.trans h.leadsTo
  laid hs e he hintact := (h.laid (hst.steady hs) e he hintact).sooner hst

theorem Lays.later (h : Lays s t es) (htu : t.LeadsTo u) : Lays s u es where
  leadsTo := h.leadsTo.trans htu
  laid hs e he hintact := (h.laid hs e he hintact).later htu (h.leadsTo.steady hs)

theorem Lays.node (h : Lays s t es) (span : Span) : Lays s (t.node span).2 es :=
  h.later (t.moves_node span).leadsTo

theorem Lays.beside (h₁ : Lays s t es) (h₂ : Lays s t fs) : Lays s t (es ++ fs) where
  leadsTo := h₁.leadsTo
  laid hs := List.forall_mem_append.2 ⟨h₁.laid hs, h₂.laid hs⟩

theorem Lays.append (h₁ : Lays s t es) (h₂ : Lays t u fs) : Lays s u (es ++ fs) :=
  (h₁.later h₂.leadsTo).beside (h₂.sooner h₁.leadsTo)

theorem lays_leaf {k : Token} (hk : s.Moves [k] t) (hspan : e.span = k.span)
    (hleaf : e.children = []) : Lays s t [e] :=
  .single ⟨_, hk⟩ fun hs _ => laid_leaf (hspan ▸ (between_token hk hs).2) hleaf

/-- The span of the node covers two spans, and all its children stand between their ends. -/
theorem laid_cover {a b : Span} (hspan : e.span = a.cover b) (ha : a.Between s t)
    (hb : b.Between s t)
    (hchildren : ∀ c ∈ e.children, c.Laid s t ∧ a.start ≤ c.span.start ∧ c.span.stop ≤ b.stop) :
    e.Laid s t := by
  refine everywhere_of ⟨hspan ▸ ha.cover hb, fun c hc => ?_⟩ fun c hc => (hchildren c hc).1
  obtain ⟨-, hstart, hstop⟩ := hchildren c hc
  rw [hspan]
  exact Span.contains_cover_iff.2 ⟨.inl hstart, .inr hstop⟩

/-- The span of the node runs from the first token to the token read last. -/
theorem lays_enclosed {k : Token} (hspan : e.span = s.span.cover u.last)
    (hchildren : e.children = es) (hk : s.Moves [k] t) (htu : t.LeadsTo u) (hes : Lays s u es) :
    Lays s u [e] := by
  refine .single hes.leadsTo fun hs hintact => ?_
  have hst : s.LeadsTo t := ⟨_, hk⟩
  obtain ⟨hfirst, htoken⟩ := between_token hk hs
  have hopen : s.span.Between s u := hfirst ▸ htoken.later htu (hst.steady hs)
  refine laid_cover hspan hopen (hopen.last hes.leadsTo hs) fun c hc => ?_
  have hlaid := hes.laid hs c (hchildren ▸ hc) (hintact.child hc)
  exact ⟨hlaid, hlaid.between.span_start_le hs, hlaid.between.before⟩

/-- The span of the node runs from a token to the operand after it. -/
theorem lays_before {k : Token} (hspan : e.span = k.span.cover r.span)
    (hchildren : e.children = [r]) (hk : s.Moves [k] t) (hr : Lays t u [r]) : Lays s u [e] := by
  have hst : s.LeadsTo t := ⟨_, hk⟩
  refine .single (hst.trans hr.leadsTo) fun hs hintact => ?_
  have ht := hst.steady hs
  have htoken := (between_token hk hs).2
  have hnonempty := htoken.nonempty
  have hlaid := hr.only ht (hintact.child (by simp [hchildren]))
  have hkr := htoken.stop_le_start (.refl t) hlaid.between ht
  refine laid_cover hspan (htoken.later hr.leadsTo ht) (hlaid.between.sooner hst) fun c hc => ?_
  rw [hchildren] at hc
  obtain rfl := List.mem_singleton.1 hc
  exact ⟨hlaid.sooner hst, by omega, Nat.le_refl _⟩

/-- The span of the node runs from its first child to the token read last; the other children were
read after the first one. -/
theorem lays_after (hspan : e.span = l.span.cover u.last) (hchildren : e.children = l :: es)
    (hl : Lays s t [l]) (hes : Lays t u es) : Lays s u [e] := by
  have hsu := hl.leadsTo.trans hes.leadsTo
  refine .single hsu fun hs hintact => ?_
  have ht := hl.leadsTo.steady hs
  have hfirst := hl.only hs (hintact.child (by simp [hchildren]))
  have hnonempty := hfirst.between.nonempty
  have hlaid := hfirst.later hes.leadsTo ht
  refine laid_cover hspan hlaid.between (hlaid.between.last hsu hs) fun c hc => ?_
  have hintact := hintact.child hc
  rw [hchildren] at hc
  rcases List.mem_cons.1 hc with rfl | hc
  · exact ⟨hlaid, Nat.le_refl _, hlaid.between.before⟩
  · have hc := hes.laid ht c hc hintact
    have hafter := hfirst.between.stop_le_start (.refl t) hc.between ht
    exact ⟨hc.sooner hl.leadsTo, by omega, hc.between.before⟩

/-- The span of the node runs from its first child to its last one; the other children were read in
between. -/
theorem lays_pair (hspan : e.span = l.span.cover r.span) (hchildren : e.children = l :: es ++ [r])
    (hl : Lays s t [l]) (hes : Lays t u es) (hr : Lays u v [r]) : Lays s v [e] := by
  have hst := hl.leadsTo
  have htu := hes.leadsTo
  have huv := hr.leadsTo
  refine .single (hst.trans (htu.trans huv)) fun hs hintact => ?_
  have ht := hst.steady hs
  have hu := htu.steady ht
  have hl := hl.only hs (hintact.child (by simp [hchildren]))
  have hr := hr.only hu (hintact.child (by simp [hchildren]))
  have hln := hl.between.nonempty
  have hrn := hr.between.nonempty
  have hlr := hl.between.stop_le_start htu hr.between ht
  have hls := hl.later (htu.trans huv) ht
  have hrs := hr.sooner (hst.trans htu)
  refine laid_cover hspan hls.between hrs.between fun c hc => ?_
  have hintact := hintact.child hc
  rw [hchildren] at hc
  rcases List.mem_append.1 hc with hc | hc
  · rcases List.mem_cons.1 hc with rfl | hc
    · exact ⟨hls, Nat.le_refl _, by omega⟩
    · have hc := hes.laid ht c hc hintact
      have hlc := hl.between.stop_le_start (.refl t) hc.between ht
      have hcr := hc.between.stop_le_start (.refl u) hr.between hu
      exact ⟨(hc.sooner hst).later huv hu, by omega, by omega⟩
  · obtain rfl := List.mem_singleton.1 hc
    exact ⟨hrs, by omega, Nat.le_refl _⟩

end Laid

end Expr

end ScriptFold
