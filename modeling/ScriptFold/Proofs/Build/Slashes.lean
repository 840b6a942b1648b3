import Mathlib.Data.List.Forall2
import ScriptFold.Build.Macro

/-!
Slashes at the ends of folders.

Two states may differ in how many slashes end their folders. Where a package is searched for by its
name or by the file, both find the package at the same place. What users set for a package is found
under its root as it is spelled, so only the two macros that give it can tell such states apart.
-/

namespace ScriptFold.Build

open scoped Relator

/-! ## Spellings -/

theorem folder_append_slash (root : String) : folder (root ++ "/") = folder root := by
  simp [folder]

theorem isWithin_congr {root root' : String} (h : folder root' = folder root) (path : String) :
    isWithin path root' = isWithin path root := by
  rw [isWithin, isWithin, h]

structure Package.Respells (p q : Package) : Prop where
  name : q.name = p.name
  version : q.version = p.version
  folder : folder q.root = folder p.root

theorem Package.Respells.refl (p : Package) : p.Respells p := ⟨rfl, rfl, rfl⟩

theorem Package.respells_append_slash (p : Package) :
    p.Respells { p with root := p.root ++ "/" } := ⟨rfl, rfl, folder_append_slash p.root⟩

/-- The same state, but for slashes at the ends of folders. The keys under which users set
something for packages stay as they are. -/
structure State.Respells (s s' : State) : Prop where
  packages : List.Forall₂ Package.Respells s.options.packages s'.options.packages
  developing : List.Forall₂ (fun r r' => folder r' = folder r)
    s.options.developing s'.options.developing
  appRoot : Option.Rel (fun r r' => folder r' = folder r) s.options.appRoot s'.options.appRoot
  modules : s'.options.modules = s.options.modules
  userConfigs : s'.options.userConfigs = s.options.userConfigs
  globalConfig : s'.options.globalConfig = s.options.globalConfig
  filename : s'.filename = s.filename

def State.withPackages (s : State) (packages : List Package) : State :=
  { s with options := { s.options with packages := packages } }

theorem State.respells_withPackages {s : State} {packages : List Package}
    (h : List.Forall₂ Package.Respells s.options.packages packages) :
    s.Respells (s.withPackages packages) where
  packages := h
  developing := List.forall₂_same.2 fun _ _ => rfl
  appRoot := by
    change Option.Rel _ s.options.appRoot s.options.appRoot
    cases s.options.appRoot with
    | none => exact .none
    | some r => exact .some rfl
  modules := rfl
  userConfigs := rfl
  globalConfig := rfl
  filename := rfl

theorem State.respells_slash {s : State} (before after : List Package) (p : Package)
    (h : s.options.packages = before ++ p :: after) :
    s.Respells (s.withPackages (before ++ { p with root := p.root ++ "/" } :: after)) := by
  refine respells_withPackages ?_
  rw [h]
  exact List.rel_append (List.forall₂_same.2 fun q _ => .refl q)
    (.cons p.respells_append_slash (List.forall₂_same.2 fun q _ => .refl q))

/-! ## Searches -/

section Searches

variable {R : Package → Package → Prop} {ps qs : List Package}

theorem find?_respelled (hR : ∀ p q, R p q → p.Respells q) (h : List.Forall₂ R ps qs)
    (name : String) :
    Option.Rel R (ps.find? (·.name = name)) (qs.find? (·.name = name)) := by
  induction h with
  | nil => exact .none
  | @cons p q ps qs hpq _ ih =>
    rw [List.find?_cons, List.find?_cons, (hR p q hpq).name]
    split
    · exact .some hpq
    · exact ih

theorem filter_respelled (hR : ∀ p q, R p q → p.Respells q) (h : List.Forall₂ R ps qs)
    (filename : String) :
    List.Forall₂ R (ps.filter fun p => isWithin filename p.root)
      (qs.filter fun q => isWithin filename q.root) :=
  List.rel_filter
    (fun p q hpq => iff_of_eq (congrArg (· = true) (isWithin_congr (hR p q hpq).folder _).symm)) h

theorem nearer_respelled (hR : ∀ p q, R p q → p.Respells q) {p q : Option Package}
    {p' q' : Package} (h : Option.Rel R p q) (h' : R p' q') :
    Option.Rel R (State.nearer p p') (State.nearer q q') := by
  cases h with
  | none => exact .some h'
  | @some p q hpq =>
    rw [State.nearer, State.nearer, (hR p q hpq).folder, (hR p' q' h').folder]
    split
    · exact .some h'
    · exact .some hpq

end Searches

theorem forall₂_zip {ps qs : List Package} (h : List.Forall₂ Package.Respells ps qs) :
    List.Forall₂ (fun p q => (p, q) ∈ ps.zip qs ∧ p.Respells q) ps qs := by
  induction h with
  | nil => exact .nil
  | @cons p q ps qs hpq _ ih =>
    exact .cons ⟨List.mem_cons_self, hpq⟩
      (ih.imp fun _ _ h => ⟨List.mem_cons_of_mem _ h.1, h.2⟩)

namespace State

variable {s s' : State}

/-- Packages at the same place in the lists of two states. -/
def SamePlace (s s' : State) (p q : Package) : Prop :=
  (p, q) ∈ s.options.packages.zip s'.options.packages ∧ p.Respells q

theorem Respells.package? (h : s.Respells s') (name : String) :
    Option.Rel (SamePlace s s') (s.options.package? name) (s'.options.package? name) :=
  find?_respelled (fun _ _ => And.right) (forall₂_zip h.packages) name

theorem Respells.owningPackage? (h : s.Respells s') :
    Option.Rel (SamePlace s s') s.owningPackage? s'.owningPackage? := by
  rw [State.owningPackage?, State.owningPackage?, h.filename]
  have hR (p q : Package) (hpq : SamePlace s s' p q) : p.Respells q := hpq.2
  have hstep : (Option.Rel (SamePlace s s') ⇒ SamePlace s s' ⇒ Option.Rel (SamePlace s s'))
      nearer nearer := fun _ _ hpq _ _ => nearer_respelled hR hpq
  exact List.rel_foldl hstep .none (filter_respelled hR (forall₂_zip h.packages) s.filename)

theorem Respells.isDeveloping (h : s.Respells s') {root root' : String}
    (hroot : folder root' = folder root) : s'.isDeveloping root' = s.isDeveloping root := by
  have hall := h.developing
  rw [State.isDeveloping, State.isDeveloping, hroot]
  generalize s.options.developing = rs, s'.options.developing = rs' at hall
  induction hall with
  | nil => rfl
  | cons hfirst _ ih => rw [List.any_cons, List.any_cons, hfirst, ih]

/-! ## Answers -/

/-- The package for which a macro gives what users set. -/
def configured? (s : State) : BuildMacro → List String → Option Package
  | .getConfig, [name] => s.options.package? name
  | .getOwnConfig, _ => s.owningPackage?
  | _, _ => none

theorem Respells.configured? (h : s.Respells s') (m : BuildMacro) (texts : List String) :
    Option.Rel (SamePlace s s') (s.configured? m texts) (s'.configured? m texts) := by
  unfold State.configured?
  split
  · exact h.package? _
  · exact h.owningPackage?
  · exact .none

theorem any_of_rel {R : α → α → Prop} {o o' : Option α} {f g : α → Bool} (h : Option.Rel R o o')
    (hfg : ∀ a b, R a b → g b = f a) : o'.any g = o.any f := by
  cases h with
  | none => rfl
  | @some a b hab => exact hfg a b hab

/-- What a macro answers that does not give what users set for a package. -/
theorem Respells.answer_eq (h : s.Respells s') {m : BuildMacro} (hget : m ≠ .getConfig)
    (hown : m ≠ .getOwnConfig) (texts : List String) : s'.answer m texts = s.answer m texts := by
  have hsatisfies (name range : String) : s'.satisfies name range = s.satisfies name range :=
    any_of_rel (h.package? name) fun p q hpq => by rw [hpq.2.version]
  have happ : s'.options.appRoot.any s'.isDeveloping = s.options.appRoot.any s.isDeveloping :=
    any_of_rel h.appRoot fun r r' hr => h.isDeveloping hr
  have hthis : s'.owningPackage?.any (fun p => s'.isDeveloping p.root) =
      s.owningPackage?.any fun p => s.isDeveloping p.root :=
    any_of_rel h.owningPackage? fun p q hpq => h.isDeveloping hpq.2.folder
  have htesting : s'.isTesting = s.isTesting := by
    rw [State.isTesting, State.isTesting, h.globalConfig]
  unfold State.answer
  split
  · rw [hsatisfies]
  · rw [h.modules]
  · exact absurd rfl hget
  · exact absurd rfl hown
  · rw [h.globalConfig]
  · rw [happ]
  · rw [hthis]
  · rw [htesting]
  all_goals rfl

theorem answer_configured (s : State) {m : BuildMacro} (hm : m = .getConfig ∨ m = .getOwnConfig)
    (texts : List String) : s.answer m texts = (s.configured? m texts).bind s.config? := by
  rcases hm with rfl | rfl
  · match texts with
    | [] | [_] | _ :: _ :: _ => rfl
  · rfl

theorem configured?_of_ne (s : State) {m : BuildMacro} (hget : m ≠ .getConfig)
    (hown : m ≠ .getOwnConfig) (texts : List String) : s.configured? m texts = none := by
  cases m with
  | getConfig => exact absurd rfl hget
  | getOwnConfig => exact absurd rfl hown
  | _ => rfl

/-- Both states give the same answer exactly if the roots of the package they find, spelled as they
are, lead to the same setting. -/
theorem Respells.answer_eq_iff (h : s.Respells s') (m : BuildMacro) (texts : List String) :
    s'.answer m texts = s.answer m texts ↔
      ∀ p q, s.configured? m texts = some p → s'.configured? m texts = some q →
        s'.config? q = s.config? p := by
  by_cases hm : m = .getConfig ∨ m = .getOwnConfig
  · rw [s.answer_configured hm, s'.answer_configured hm]
    have hrel := h.configured? m texts
    generalize s.configured? m texts = o, s'.configured? m texts = o' at hrel
    cases hrel with
    | none => simp
    | some _ => simp
  · obtain ⟨hget, hown⟩ := not_or.1 hm
    refine iff_of_true (h.answer_eq hget hown texts) fun p q hp => ?_
    rw [s.configured?_of_ne hget hown] at hp
    cases hp

end State

theorem handlers_eq_iff {s s' : State} {m : BuildMacro} {call : Expr} :
    handlers m call s' = handlers m call s ↔
      ∀ texts, argumentTexts m call = .ok texts → s'.answer m texts = s.answer m texts := by
  unfold handlers
  cases argumentTexts m call with
  | error e => exact iff_of_true rfl nofun
  | ok texts =>
    constructor
    · rintro h _ ⟨⟩
      exact Except.ok.inj h
    · intro h
      exact congrArg Except.ok (h texts rfl)

/-- **Slashes at the ends of folders.** Where the folders of two states differ only in the slashes
at their ends, every macro that does not give what users set for a package answers alike. The other
two find the package at the same place in both lists, and they answer alike exactly if users set the
same under both spellings of its root. -/
theorem handlers_respelled {s s' : State} (h : s.Respells s') (m : BuildMacro) (call : Expr) :
    (m ≠ .getConfig → m ≠ .getOwnConfig → handlers m call s' = handlers m call s) ∧
    (∀ texts, Option.Rel (State.SamePlace s s') (s.configured? m texts) (s'.configured? m texts)) ∧
    (handlers m call s' = handlers m call s ↔
      ∀ texts p q, argumentTexts m call = .ok texts → s.configured? m texts = some p →
        s'.configured? m texts = some q →
        s.options.userConfigs.lookup q.root = s.options.userConfigs.lookup p.root) := by
  refine ⟨fun hget hown => ?_, h.configured? m, ?_⟩
  · exact handlers_eq_iff.2 fun texts _ => h.answer_eq hget hown texts
  · rw [handlers_eq_iff]
    simp only [h.answer_eq_iff, State.config?, h.userConfigs]
    exact ⟨fun hall texts p q htexts => hall texts htexts p q,
      fun hall texts htexts p q => hall texts p q htexts⟩

/-- A file of a package with one slash more at its root. Users set the same under both spellings. -/
theorem handlers_respelled_app :
    let app : Package := ⟨"app", "1.0.0", "/app"⟩
    let s : State := ⟨⟨none, ["/app"], [app], [],
      [("/app", .bool true), ("/app/", .bool true)], []⟩, "/app/index.js", []⟩
    let s' : State := s.withPackages [{ app with root := "/app/" }]
    ∀ call, handlers .isDevelopingThisPackage call s' = handlers .isDevelopingThisPackage call s ∧
      handlers .getOwnConfig call s' = handlers .getOwnConfig call s := by
  intro app s s' call
  have h : s.Respells s' := State.respells_slash [] [] app rfl
  refine ⟨(handlers_respelled h .isDevelopingThisPackage call).1 nofun nofun, ?_⟩
  refine (handlers_respelled h .getOwnConfig call).2.2.2 fun texts p q _ hp hq => ?_
  have howner : s.owningPackage? = some app := by decide +kernel
  have howner' : s'.owningPackage? = some { app with root := "/app/" } := by decide +kernel
  obtain rfl : app = p := Option.some.inj (howner.symm.trans hp)
  obtain rfl : _ = q := Option.some.inj (howner'.symm.trans hq)
  rfl

/-- One slash more at the root of a package, and what users set for it under the root without the
slash is not found. -/
theorem setting_lost :
    ¬ ∀ (s : State) (before after : List Package) (p : Package), p.root ≠ "" →
      s.options.packages = before ++ p :: after →
      ∀ (m : BuildMacro) (call : Expr) (texts : List String), argumentTexts m call = .ok texts →
        handlers m call (s.withPackages (before ++ { p with root := p.root ++ "/" } :: after)) =
          handlers m call s := by
  intro h
  let app : Package := ⟨"app", "1.0.0", "/app"⟩
  let s : State := ⟨⟨none, [], [app], [], [("/app", .bool true)], []⟩, "/app/index.js", []⟩
  let call : Expr := .call default (.ident default "getOwnConfig") [] false
  have heq := congrArg (fun r => r.toOption.any Option.isSome)
    (h s [] [] app (by decide) rfl .getOwnConfig call [] rfl)
  have hlost : ((handlers .getOwnConfig call
      (s.withPackages [{ app with root := "/app" ++ "/" }])).toOption.any Option.isSome) = false := by
    decide +kernel
  have hset : ((handlers .getOwnConfig call s).toOption.any Option.isSome) = true := by
    decide +kernel
  exact Bool.false_ne_true ((hlost.symm.trans heq).trans hset)

end ScriptFold.Build
