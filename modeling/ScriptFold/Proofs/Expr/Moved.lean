import ScriptFold.Program

/-!
Trees of a text that stands further on in a longer text.

All spans move by the same number of bytes and all identities by the same number. Nothing else of
a tree changes.
-/

namespace ScriptFold

/-- How far a text is moved in a longer one. -/
structure Move where
  bytes : Nat
  /-- How many identities were given before. -/
  ids : Nat
deriving DecidableEq, Repr

def Move.stay : Move := ⟨0, 0⟩

@[simp] theorem Move.bytes_stay : Move.stay.bytes = 0 := rfl

@[simp] theorem Move.ids_stay : Move.stay.ids = 0 := rfl

def Node.move (m : Move) (n : Node) : Node := ⟨m.ids + n.id, n.span.shift m.bytes⟩

/-! ## Expressions -/

namespace Expr

mutual

def move (m : Move) : Expr → Expr
  | null n => null (n.move m)
  | bool n b => bool (n.move m) b
  | number n x => number (n.move m) x
  | string n s => string (n.move m) s
  | ident n x => ident (n.move m) x
  | array n es => array (n.move m) (moveElements m es)
  | object n ms => object (n.move m) (moveAll m ms)
  | property n k v c s => property (n.move m) (move m k) (move m v) c s
  | spread n a => spread (n.move m) (move m a)
  | member n o p c q => member (n.move m) (move m o) (move m p) c q
  | call n f xs q => call (n.move m) (move m f) (moveAll m xs) q
  | assign n op t v => assign (n.move m) op (move m t) (move m v)
  | binary n op l r => binary (n.move m) op (move m l) (move m r)
  | logical n op l r => logical (n.move m) op (move m l) (move m r)
  | unary n op a => unary (n.move m) op (move m a)
  | conditional n t c a => conditional (n.move m) (move m t) (move m c) (move m a)
  | sequence n es => sequence (n.move m) (moveAll m es)
  | invalid n => invalid (n.move m)

def moveAll (m : Move) : List Expr → List Expr
  | [] => []
  | e :: rest => move m e :: moveAll m rest

def moveElements (m : Move) : List (Option Expr) → List (Option Expr)
  | [] => []
  | none :: rest => none :: moveElements m rest
  | some e :: rest => some (move m e) :: moveElements m rest

end

theorem moveAll_eq_map (m : Move) (es : List Expr) : moveAll m es = es.map (move m) := by
  induction es with
  | nil => rfl
  | cons e rest ih => rw [moveAll, ih, List.map_cons]

@[simp] theorem node_move (m : Move) (e : Expr) : (e.move m).node = e.node.move m := by
  cases e <;> rfl

@[simp] theorem span_move (m : Move) (e : Expr) : (e.move m).span = e.span.shift m.bytes := by
  rw [span, node_move]
  rfl

@[simp] theorem isAssignable_move (m : Move) (e : Expr) :
    (e.move m).isAssignable = e.isAssignable := by
  cases e with
  | member n o p c q => cases q <;> rfl
  | _ => rfl

end Expr

/-! ## Statements -/

def Name.move (m : Move) (n : Name) : Name := ⟨n.text, n.span.shift m.bytes⟩

def ImportSpecifier.move (m : Move) (s : ImportSpecifier) : ImportSpecifier :=
  ⟨s.name.move m, s.imported, s.span.shift m.bytes⟩

def Import.move (m : Move) (i : Import) : Import := ⟨i.specifiers.map (.move m), i.source⟩

def Declarator.move (m : Move) (d : Declarator) : Declarator :=
  ⟨d.name.move m, d.init.map (.move m), d.span.shift m.bytes⟩

namespace Stmt

mutual

def move (m : Move) : Stmt → Stmt
  | importDecl span decl => importDecl (span.shift m.bytes) (decl.move m)
  | declare span kind ds => declare (span.shift m.bytes) kind (ds.map (.move m))
  | block span body => block (span.shift m.bytes) (moveAll m body)
  | expr span e => expr (span.shift m.bytes) (e.move m)
  | empty span => empty (span.shift m.bytes)

def moveAll (m : Move) : List Stmt → List Stmt
  | [] => []
  | s :: rest => move m s :: moveAll m rest

end

end Stmt

/-! ## Staying -/

@[simp] theorem Span.shift_zero (s : Span) : s.shift 0 = s := by
  simp [shift]

@[simp] theorem Node.move_stay (n : Node) : n.move .stay = n := by
  simp [move]

namespace Expr

mutual

@[simp] theorem move_stay : ∀ e : Expr, e.move .stay = e
  | null _ | bool _ _ | number _ _ | string _ _ | ident _ _ | invalid _ => by simp [move]
  | array _ es => by simp [move, moveElements_stay es]
  | object _ ms => by simp [move, moveAll_stay ms]
  | property _ k v _ _ => by simp [move, move_stay k, move_stay v]
  | spread _ a => by simp [move, move_stay a]
  | member _ o p _ _ => by simp [move, move_stay o, move_stay p]
  | call _ f xs _ => by simp [move, move_stay f, moveAll_stay xs]
  | assign _ _ t v => by simp [move, move_stay t, move_stay v]
  | binary _ _ l r => by simp [move, move_stay l, move_stay r]
  | logical _ _ l r => by simp [move, move_stay l, move_stay r]
  | unary _ _ a => by simp [move, move_stay a]
  | conditional _ t c a => by simp [move, move_stay t, move_stay c, move_stay a]
  | sequence _ es => by simp [move, moveAll_stay es]

theorem moveAll_stay : ∀ es : List Expr, moveAll .stay es = es
  | [] => rfl
  | e :: rest => by rw [moveAll, move_stay e, moveAll_stay rest]

theorem moveElements_stay : ∀ es : List (Option Expr), moveElements .stay es = es
  | [] => rfl
  | none :: rest => by rw [moveElements, moveElements_stay rest]
  | some e :: rest => by rw [moveElements, move_stay e, moveElements_stay rest]

end

end Expr

@[simp] theorem Name.move_stay (n : Name) : n.move .stay = n := by
  simp [move]

@[simp] theorem ImportSpecifier.move_stay (s : ImportSpecifier) : s.move .stay = s := by
  simp [move]

@[simp] theorem Import.move_stay (i : Import) : i.move .stay = i := by
  rw [move, List.map_id'' ImportSpecifier.move_stay]

@[simp] theorem Declarator.move_stay (d : Declarator) : d.move .stay = d := by
  have hinit : d.init.map (Expr.move .stay) = d.init := by
    cases d.init with
    | none => rfl
    | some e => exact congrArg some e.move_stay
  simp [move, hinit]

namespace Stmt

theorem moveAll_stay_of {body : List Stmt} (h : ∀ s ∈ body, s.move .stay = s) :
    moveAll .stay body = body := by
  induction body with
  | nil => rfl
  | cons s rest ih =>
    obtain ⟨hs, hrest⟩ := List.forall_mem_cons.1 h
    rw [moveAll, hs, ih hrest]

theorem move_stay : ∀ s : Stmt, s.move .stay = s
  | importDecl _ _ | expr _ _ | empty _ => by simp [move]
  | declare _ _ ds => by simp [move, List.map_id'' Declarator.move_stay ds]
  | block _ body => by
    have hbody : ∀ s ∈ body, s.move .stay = s := fun s _ => move_stay s
    simp [move, moveAll_stay_of hbody]

theorem moveAll_stay (body : List Stmt) : moveAll .stay body = body :=
  moveAll_stay_of fun s _ => move_stay s

end Stmt

end ScriptFold
