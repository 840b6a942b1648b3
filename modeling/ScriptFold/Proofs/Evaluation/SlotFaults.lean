import ScriptFold.Fold
import ScriptFold.Proofs.Evaluation.Readings
import ScriptFold.Proofs.Evaluation.Requests
import ScriptFold.Proofs.Evaluation.Slots

/-!
Structural faults do not occur.

A structural fault says that a node was asked for a slot that it does not have. Rules find the nodes
below a node in slots, and macros find the arguments of a call in a slot. The rules ask for slots
that are there, and macros are called at calls only. What a structural fault could still come from
is a reading, so the invariant is that nothing remembered reads as one.
-/

namespace ScriptFold

/-- The fault says that a node was asked for a slot that it does not have. -/
inductive Fault.IsStructural : Fault → Prop
  | slot (error : SlotError) : IsStructural (.slot error)
  | call (error : SlotError) : IsStructural (.call (.slot error))

/-! ## Computations with some faults -/

def FaultsIn {ε α : Type} (F : ε → Prop) (x : Except ε α) : Prop := ∀ f, x = .error f → F f

namespace FaultsIn

variable {ε ε' α β : Type} {F : ε → Prop} {x : Except ε α}

theorem ok (a : α) : FaultsIn F (.ok a) := by
  rintro _ ⟨⟩

theorem error {f : ε} (h : F f) : FaultsIn (α := α) F (.error f) := by
  rintro _ ⟨⟩
  exact h

theorem bind {g : α → Except ε β} (hx : FaultsIn F x) (hg : ∀ a, FaultsIn F (g a)) :
    FaultsIn F (x >>= g) := by
  cases x with
  | error f => exact error (hx f rfl)
  | ok a => exact hg a

theorem mapM {g : β → Except ε α} {ys : List β} (hg : ∀ y ∈ ys, FaultsIn F (g y)) :
    FaultsIn F (ys.mapM g) := by
  induction ys with
  | nil => exact ok []
  | cons y rest ih =>
    rw [List.mapM_cons]
    have hrest := ih fun y hy => hg y (List.mem_cons_of_mem _ hy)
    exact (hg y List.mem_cons_self).bind fun _ => hrest.bind fun _ => ok _

theorem mapError {y : Except ε' α} {g : ε' → ε} (hy : FaultsIn (fun f => F (g f)) y) :
    FaultsIn F (y.mapError g) := by
  cases y with
  | error f => exact error (hy f rfl)
  | ok a => exact ok a

end FaultsIn

/-! ## Readings -/

namespace Reading

variable {F : Fault → Prop}

theorem faultsIn_member (hread : ∀ e, F (.read e)) (optional : Bool) {o k : Reading}
    (ho : FaultsIn F o) (hk : FaultsIn F k) : FaultsIn F (member optional o k) := by
  refine ho.bind fun a => ?_
  split
  · exact .ok a
  · exact hk.bind fun b => .mapError fun e _ => hread e

theorem faultsIn_array (i : Identity) {items : List Reading} (h : ∀ r ∈ items, FaultsIn F r) :
    FaultsIn F (array i items) :=
  (FaultsIn.mapM h).bind fun _ => .ok _

theorem faultsIn_object (i : Identity) {entries : List (Reading × Reading)}
    (h : ∀ e ∈ entries, FaultsIn F e.1 ∧ FaultsIn F e.2) : FaultsIn F (object i entries) := by
  refine (FaultsIn.mapM fun e he => ?_).bind fun _ => .ok _
  obtain ⟨hkey, hvalue⟩ := h e he
  exact hkey.bind fun _ => hvalue.bind fun _ => .ok _

theorem faultsIn_unary (f : Value → Value) {a : Reading} (ha : FaultsIn F a) :
    FaultsIn F (unary f a) :=
  ha.bind fun _ => .ok _

theorem faultsIn_binary (f : Value → Value → Value) {a b : Reading} (ha : FaultsIn F a)
    (hb : FaultsIn F b) : FaultsIn F (binary f a b) :=
  ha.bind fun _ => hb.bind fun _ => .ok _

end Reading

/-! ## Macros -/

namespace Build

def MacroError.NotSlot (error : MacroError) : Prop := ∀ e, error ≠ .slot e

theorem faultsIn_literalTexts (m : BuildMacro) (index : Nat) (arguments : List (Option Expr)) :
    FaultsIn MacroError.NotSlot (literalTexts m index arguments) := by
  induction arguments generalizing index with
  | nil => exact .ok []
  | cons argument rest ih =>
    rw [literalTexts.eq_def]
    split
    · exact .ok []
    · rename_i heq
      cases heq
      exact (ih (index + 1)).bind fun _ => .ok _
    · exact .error fun _ => nofun

/-- A call has arguments, so that a macro finds them. -/
theorem faultsIn_handlers (m : BuildMacro) (n : Node) (callee : Expr) (arguments : List Expr)
    (optional : Bool) (state : State) :
    FaultsIn MacroError.NotSlot (handlers m (.call n callee arguments optional) state) := by
  have harguments : Expr.list (.call n callee arguments optional) .arguments =
    .ok (arguments.map some) := rfl
  have htexts : FaultsIn MacroError.NotSlot
      (argumentTexts m (.call n callee arguments optional)) := by
    unfold argumentTexts
    rw [harguments]
    refine (FaultsIn.ok (arguments.map some)).bind fun found => ?_
    split
    · exact .error fun _ => nofun
    · exact faultsIn_literalTexts m 0 found
  exact htexts.bind fun _ => .ok _

end Build

/-! ## Requests -/

def Reading.Unbroken (r : Reading) : Prop := FaultsIn (fun f => ¬ f.IsStructural) r

/-- Macro calls are answered from the options of a build, and what the baseline knows does not read
as a structural fault. -/
structure Setting.IsStock (s : Setting) : Prop where
  baseline : ∀ e r, s.baseline e = some r → r.Unbroken
  handlers : ∀ context, s.context = some context → context.handlers = Build.handlers

/-- Rules make no structural fault of other faults. -/
theorem Setting.IsStock.keeps {s : Setting} (h : s.IsStock) :
    s.Keeps Reading.Unbroken fun f => ¬ f.IsStructural where
  baseline := h.baseline
  literal _ v _ := .ok v
  deferred _ := .error nofun
  macroValue _ _ := .ok _
  array i _ hitems := Reading.faultsIn_array i hitems
  object i _ hentries := Reading.faultsIn_object i hentries
  member optional _ _ ho hk := Reading.faultsIn_member (fun _ => nofun) optional ho hk
  unary _ f _ _ ha := Reading.faultsIn_unary f ha
  binary _ f _ _ _ ha hb := Reading.faultsIn_binary f ha hb
  logical op _ _ ha hb := Reading.faultsIn_binary op.function ha hb
  read f hf := hf f rfl
  handlers context hcontext m n callee arguments optional error herror := by
    rw [h.handlers context hcontext] at herror
    have hslot := Build.faultsIn_handlers m n callee arguments optional context.state error herror
    rintro ⟨⟩
    exact hslot _ rfl

namespace Request

variable {m : Memory} {r : Request}

theorem outcome (hm : m.Holds Reading.Unbroken) (hr : r.setting.IsStock) :
    Evaluation.Outcome Reading.Unbroken (fun f => ¬ f.IsStructural)
      (Answer.Holds Reading.Unbroken) (r.result m, r.after m) :=
  Evaluation.respects_answer hr.keeps r.node m hm

end Request

theorem Memory.Holds.afterAll {m : Memory} (hm : m.Holds Reading.Unbroken)
    (requests : List Request) (hrequests : ∀ r ∈ requests, r.setting.IsStock) :
    (m.afterAll requests).Holds Reading.Unbroken :=
  afterAll_induction hm fun _ r hr h => (Request.outcome h (hrequests r hr)).memory

/-- **No structural faults.** There is one evaluation that finds the nodes below a node in slots
and ends in a fault where a slot is missing; it is the one that answers requests. After any requests
for nodes, with macro calls answered from the options of a build, the evaluation of any node ends in
no structural fault, and neither does reading what it gives or what is remembered. -/
theorem Request.no_structural_fault {m : Memory} (hm : m.Holds Reading.Unbroken)
    (requests : List Request) (hrequests : ∀ r ∈ requests, r.setting.IsStock) (r : Request)
    (hr : r.setting.IsStock) :
    let reached := m.afterAll requests
    (∀ ev, Evaluation.FollowsSlots r.setting ev ↔ ev = Evaluation.answer r.setting) ∧
    (∀ f, r.result reached = .error f → ¬ f.IsStructural) ∧
    (∀ c f, r.result reached = .ok (some c) → c.reading = .error f → ¬ f.IsStructural) ∧
    ∀ id c f, reached.memo.lookup id = some (some c) → c.reading = .error f → ¬ f.IsStructural := by
  intro reached
  have hreached : reached.Holds Reading.Unbroken := hm.afterAll requests hrequests
  have hend := Request.outcome hreached hr
  refine ⟨fun ev => Evaluation.followsSlots_iff, hend.fault, fun c f hc hf => ?_, ?_⟩
  · exact hend.result (some c) hc c rfl f hf
  · exact fun id c f hc hf => hreached.memo id (some c) hc c rfl f hf

/-- A macro that is called with a node which could not be parsed ends in a fault, but not in a
structural one. Before, an object was evaluated whose only member is a spread of such a node. -/
theorem Request.no_structural_fault_of_invalid :
    let name : String := "moduleExists"
    let object : Expr := .object ⟨1, .nowhere⟩ [.spread ⟨2, .nowhere⟩ (.invalid ⟨3, .nowhere⟩)]
    let call : Expr :=
      .call ⟨4, .nowhere⟩ (.ident ⟨5, .nowhere⟩ name) [.invalid ⟨6, .nowhere⟩] false
    let p : Program := ⟨[.importDecl .nowhere
        ⟨[⟨⟨name, .nowhere⟩, .named name, .nowhere⟩], BuildMacro.source⟩,
      .expr .nowhere object, .expr .nowhere call], .nowhere⟩
    let s : Setting :=
      ⟨.ofProgram p, .nothing, some (.ofState ⟨⟨none, [], [], [], [], []⟩, "", []⟩), 0⟩
    let r : Request := ⟨s, call⟩
    let fault : Fault := .call (.notStringLiteral .moduleExists 0)
    Memory.empty.Holds Reading.Unbroken ∧ s.IsStock ∧
      r.result (Memory.empty.afterAll [⟨s, object⟩]) = .error fault ∧ ¬ fault.IsStructural := by
  intro name object call p s r fault
  have hempty : Memory.empty.Holds Reading.Unbroken := .empty
  have hs : s.IsStock := ⟨nofun, fun context hcontext => by cases hcontext; rfl⟩
  have hfault : r.result (Memory.empty.afterAll [⟨s, object⟩]) = .error fault := rfl
  obtain ⟨-, hnot, -⟩ := no_structural_fault hempty [⟨s, object⟩]
    (fun r' hr' => by rw [List.mem_singleton.1 hr']; exact hs) r hs
  exact ⟨hempty, hs, hfault, hnot fault hfault⟩

end ScriptFold
